import WarmFeed.Proofs.Course
import WarmFeed.Routine.Interleaving

/-!
# Routines that take turns

What several routines do side by side is the list of their turns: whose turn it was, what
was asked for and in which state.  Whatever the others make of the state, each of them goes
down its own tree.

A pact says what may become of the state.  A routine that keeps to it as long as the others
do can rely on all that it has found out and that no one may undo.  If each of the routines
keeps to the pact in that sense then they do so together, in every order of their turns.
-/

namespace WarmFeed

structure Turn (σ Q : Type) extends Moment σ Q where
  place : Nat
deriving DecidableEq

def Turn.seen {σ τ Q : Type} (view : σ → τ) (m : Turn σ Q) : Turn τ Q :=
  ⟨⟨view m.state, m.request⟩, m.place⟩

theorem Turn.map_seen_id {σ Q : Type} (ms : List (Turn σ Q)) : ms.map (Turn.seen id) = ms :=
  List.map_id ms

def requestsOf {σ Q : Type} (place : Nat) (ms : List (Turn σ Q)) : List Q :=
  (ms.filter fun m => m.place = place).map fun m => m.request

theorem requestsOf_append {σ Q : Type} (place : Nat) (ms ms' : List (Turn σ Q)) :
    requestsOf place (ms ++ ms') = requestsOf place ms ++ requestsOf place ms' := by
  rw [requestsOf, List.filter_append, List.map_append]
  rfl

theorem requestsOf_cons_of_eq {σ Q : Type} {place : Nat} {m : Turn σ Q} (h : m.place = place)
    (ms : List (Turn σ Q)) : requestsOf place (m :: ms) = m.request :: requestsOf place ms := by
  rw [requestsOf, List.filter_cons, if_pos (decide_eq_true h)]
  rfl

theorem requestsOf_cons_of_ne {σ Q : Type} {place : Nat} {m : Turn σ Q} (h : m.place ≠ place)
    (ms : List (Turn σ Q)) : requestsOf place (m :: ms) = requestsOf place ms := by
  rw [requestsOf, List.filter_cons, if_neg (mt of_decide_eq_true h)]
  rfl

theorem mem_requestsOf {σ Q : Type} {place : Nat} {ms : List (Turn σ Q)} {q : Q} :
    q ∈ requestsOf place ms ↔ ∃ m ∈ ms, m.place = place ∧ m.request = q := by
  simp only [requestsOf, List.mem_map, List.mem_filter, decide_eq_true_eq, and_assoc]

/-- A place that makes requests makes a first one. -/
theorem exists_first_of_requestsOf {σ Q : Type} {place : Nat} {ms : List (Turn σ Q)}
    (h : requestsOf place ms ≠ []) :
    ∃ before m later, ms = before ++ m :: later ∧ m.place = place ∧
      requestsOf place before = [] := by
  induction ms with
  | nil => exact absurd rfl h
  | cons m ms ih =>
    by_cases hm : m.place = place
    · exact ⟨[], m, ms, rfl, hm, rfl⟩
    · rw [requestsOf_cons_of_ne hm] at h
      obtain ⟨before, m', later, rfl, hplace, hbefore⟩ := ih h
      exact ⟨m :: before, m', later, rfl, hplace, (requestsOf_cons_of_ne hm before).trans hbefore⟩

namespace Routine

variable {Q σ α : Type} {R : Q → Type}

def asked : Routine R α → List Q
  | ask q _ _ => [q]
  | _ => []

def turns (answer : σ → (q : Q) → R q × σ) :
    List Nat → List (Routine R α) → σ → List (Turn σ Q)
  | [], _, _ => []
  | i :: schedule, ps, s =>
    match ps[i]? with
    | none => turns answer schedule ps s
    | some p =>
      (p.asked.map fun q => ⟨⟨s, q⟩, i⟩) ++
        turns answer schedule (ps.set i (p.turn answer s).1) (p.turn answer s).2

section Schedules

variable (answer : σ → (q : Q) → R q × σ) {i : Nat} {p : Routine R α} {ps : List (Routine R α)}

theorem interleave_cons_of_none (h : ps[i]? = none) (schedule : List Nat) (s : σ) :
    interleave answer (i :: schedule) ps s = interleave answer schedule ps s := by
  rw [interleave, h]

theorem interleave_cons_of_some (h : ps[i]? = some p) (schedule : List Nat) (s : σ) :
    interleave answer (i :: schedule) ps s =
      interleave answer schedule (ps.set i (p.turn answer s).1) (p.turn answer s).2 := by
  rw [interleave, h]

theorem interleave_append (first second : List Nat) (ps : List (Routine R α)) (s : σ) :
    interleave answer (first ++ second) ps s =
      interleave answer second (interleave answer first ps s).1
        (interleave answer first ps s).2 := by
  induction first generalizing ps s with
  | nil => rfl
  | cons i first ih =>
    cases hp : ps[i]? with
    | none =>
      rw [List.cons_append, interleave_cons_of_none answer hp, interleave_cons_of_none answer hp]
      exact ih ps s
    | some p =>
      rw [List.cons_append, interleave_cons_of_some answer hp, interleave_cons_of_some answer hp]
      exact ih _ _

theorem turns_cons_of_none (h : ps[i]? = none) (schedule : List Nat) (s : σ) :
    turns answer (i :: schedule) ps s = turns answer schedule ps s := by
  rw [turns, h]

theorem turns_cons_of_some (h : ps[i]? = some p) (schedule : List Nat) (s : σ) :
    turns answer (i :: schedule) ps s = (p.asked.map fun q => ⟨⟨s, q⟩, i⟩) ++
      turns answer schedule (ps.set i (p.turn answer s).1) (p.turn answer s).2 := by
  rw [turns, h]

theorem turns_append (first second : List Nat) (ps : List (Routine R α)) (s : σ) :
    turns answer (first ++ second) ps s = turns answer first ps s ++
      turns answer second (interleave answer first ps s).1 (interleave answer first ps s).2 := by
  induction first generalizing ps s with
  | nil => rfl
  | cons i first ih =>
    cases hp : ps[i]? with
    | none =>
      rw [List.cons_append, turns_cons_of_none answer hp, turns_cons_of_none answer hp,
        interleave_cons_of_none answer hp]
      exact ih ps s
    | some p =>
      rw [List.cons_append, turns_cons_of_some answer hp, turns_cons_of_some answer hp,
        interleave_cons_of_some answer hp, List.append_assoc]
      exact congrArg (_ ++ ·) (ih _ _)

/-- The schedule can be split at the turn in which a request was made. -/
theorem exists_split_of_turns {schedule : List Nat} {ps : List (Routine R α)} {s : σ}
    {before later : List (Turn σ Q)} {m : Turn σ Q}
    (h : turns answer schedule ps s = before ++ m :: later) :
    ∃ first second onDrop next, schedule = first ++ m.place :: second ∧
      turns answer first ps s = before ∧ (interleave answer first ps s).2 = m.state ∧
      (interleave answer first ps s).1[m.place]? = some (ask m.request onDrop next) := by
  induction schedule generalizing before ps s with
  | nil => exact absurd h.symm (List.append_ne_nil_of_right_ne_nil _ (List.cons_ne_nil _ _))
  | cons i schedule ih =>
    -- Unless it is the first turn, the first turn belongs to what comes before.
    have hlater : ∀ (own before' : List (Turn σ Q)) (ps' : List (Routine R α)) (s' : σ),
        (∀ more, turns answer (i :: more) ps s = own ++ turns answer more ps' s') →
        (∀ more, interleave answer (i :: more) ps s = interleave answer more ps' s') →
        turns answer schedule ps' s' = before' ++ m :: later →
        ∃ first second onDrop next, i :: schedule = first ++ m.place :: second ∧
          turns answer first ps s = own ++ before' ∧ (interleave answer first ps s).2 = m.state ∧
          (interleave answer first ps s).1[m.place]? = some (ask m.request onDrop next) := by
      intro own before' ps' s' hturns hinterleave hrest
      obtain ⟨first, second, onDrop, next, rfl, hbefore, hstate, hleft⟩ := ih hrest
      refine ⟨i :: first, second, onDrop, next, rfl, ?_, ?_, ?_⟩
      · rw [hturns, hbefore]
      · rw [hinterleave, hstate]
      · rw [hinterleave, hleft]
    cases hp : ps[i]? with
    | none =>
      refine hlater [] before ps s (fun more => turns_cons_of_none answer hp more s)
        (fun more => interleave_cons_of_none answer hp more s) ?_
      rwa [turns_cons_of_none answer hp] at h
    | some p =>
      have hcons := fun more => turns_cons_of_some answer hp more s
      have hnext := fun more => interleave_cons_of_some answer hp more s
      rw [hcons] at h
      cases p with
      | done a => exact hlater [] before _ _ hcons hnext h
      | pause millis onDrop next => exact hlater [] before _ _ hcons hnext h
      | ask q onDrop next =>
        cases before with
        | nil =>
          obtain ⟨rfl, -⟩ := List.cons.inj h
          exact ⟨[], schedule, onDrop, next, rfl, rfl, rfl, hp⟩
        | cons m' before =>
          obtain ⟨rfl, hrest⟩ := List.cons.inj h
          exact hlater [_] before _ _ hcons hnext hrest

end Schedules

/-- What every turn carries on holds of all turns together and of what they leave of the
routines. -/
theorem interleave_keeps {answer : σ → (q : Q) → R q × σ}
    {P : List (Turn σ Q) → List (Routine R α) → σ → Prop}
    (hturn : ∀ ms ps t i p, P ms ps t → ps[i]? = some p →
      P (ms ++ p.asked.map fun q => ⟨⟨t, q⟩, i⟩) (ps.set i (p.turn answer t).1)
        (p.turn answer t).2)
    (schedule : List Nat) {ms : List (Turn σ Q)} {ps : List (Routine R α)} {s : σ}
    (hs : P ms ps s) :
    P (ms ++ turns answer schedule ps s) (interleave answer schedule ps s).1
      (interleave answer schedule ps s).2 := by
  induction schedule generalizing ps ms s with
  | nil => exact (List.append_nil ms).symm ▸ hs
  | cons i schedule ih =>
    cases hp : ps[i]? with
    | none =>
      rw [interleave_cons_of_none answer hp, turns_cons_of_none answer hp]
      exact ih hs
    | some p =>
      rw [interleave_cons_of_some answer hp, turns_cons_of_some answer hp, ← List.append_assoc]
      exact ih (hturn ms ps s i p hs hp)

/-- What holds at first and is carried on by every turn holds of all turns together. -/
theorem interleave_induction {answer : σ → (q : Q) → R q × σ} {P : List (Turn σ Q) → σ → Prop}
    (hturn : ∀ ms t q i, P ms t → P (ms ++ [⟨⟨t, q⟩, i⟩]) (answer t q).2) (schedule : List Nat)
    (ps : List (Routine R α)) {ms : List (Turn σ Q)} {s : σ} (hs : P ms s) :
    P (ms ++ turns answer schedule ps s) (interleave answer schedule ps s).2 := by
  refine interleave_keeps (P := fun ms (_ : List (Routine R α)) t => P ms t) ?_ schedule hs
  intro ms ps t i p ht hp
  cases p with
  | done a => exact (List.append_nil ms).symm ▸ ht
  | ask q onDrop next => exact hturn ms t q i ht
  | pause millis onDrop next => exact (List.append_nil ms).symm ▸ ht

theorem turns_induction {answer : σ → (q : Q) → R q × σ} {P : List (Turn σ Q) → σ → Prop}
    (hturn : ∀ ms t q i, P ms t → P (ms ++ [⟨⟨t, q⟩, i⟩]) (answer t q).2) (schedule : List Nat)
    (ps : List (Routine R α)) {s : σ} (hs : P [] s) :
    P (turns answer schedule ps s) (interleave answer schedule ps s).2 :=
  interleave_induction hturn schedule ps hs

theorem exists_of_mem_turns (answer : σ → (q : Q) → R q × σ) {schedule : List Nat}
    {ps : List (Routine R α)} {s : σ} {m : Turn σ Q} (hm : m ∈ turns answer schedule ps s) :
    ∃ p, ps[m.place]? = some p := by
  induction schedule generalizing ps s with
  | nil => exact absurd hm List.not_mem_nil
  | cons i schedule ih =>
    cases hp : ps[i]? with
    | none =>
      rw [turns_cons_of_none answer hp] at hm
      exact ih hm
    | some p =>
      rw [turns_cons_of_some answer hp] at hm
      rcases List.mem_append.mp hm with hm | hm
      · obtain ⟨q, -, rfl⟩ := List.mem_map.mp hm
        exact ⟨p, hp⟩
      · obtain ⟨p', hp'⟩ := ih hm
        have hplace := (List.getElem?_eq_some_iff.mp hp').1
        rw [List.length_set] at hplace
        exact ⟨_, List.getElem?_eq_getElem hplace⟩

/-! ## What is seen of a state -/

section SeenAs

variable {τ : Type} {answer : σ → (q : Q) → R q × σ} {view : σ → τ}
  {answer' : τ → (q : Q) → R q × τ}

theorem SeenAs.turn (h : SeenAs answer view answer') (p : Routine R α) (s : σ) :
    (p.turn answer s).map id view = p.turn answer' (view s) := by
  cases p with
  | done a => rfl
  | ask q onDrop next =>
    rw [Routine.turn, Routine.turn, ← h]
    rfl
  | pause millis onDrop next => rfl

/-- What routines come to side by side, and in which turns, is told by what is seen. -/
theorem SeenAs.interleave (h : SeenAs answer view answer') (schedule : List Nat)
    (ps : List (Routine R α)) (s : σ) :
    (interleave answer schedule ps s).map id view = interleave answer' schedule ps (view s) ∧
      (turns answer schedule ps s).map (Turn.seen view) = turns answer' schedule ps (view s) := by
  induction schedule generalizing ps s with
  | nil => exact ⟨rfl, rfl⟩
  | cons i schedule ih =>
    cases hp : ps[i]? with
    | none =>
      rw [interleave_cons_of_none answer hp, interleave_cons_of_none answer' hp,
        turns_cons_of_none answer hp, turns_cons_of_none answer' hp]
      exact ih ps s
    | some p =>
      obtain ⟨hafter, hturns⟩ := ih (ps.set i (p.turn answer s).1) (p.turn answer s).2
      rw [interleave_cons_of_some answer hp, interleave_cons_of_some answer' hp,
        turns_cons_of_some answer hp, turns_cons_of_some answer' hp, ← h.turn, List.map_append,
        List.map_map]
      exact ⟨hafter, congrArg (_ ++ ·) hturns⟩

end SeenAs

/-! ## Down one's own tree -/

/-- With these requests, each answered as it is in some state, the routine comes to what is
left of it then. -/
inductive ComesTo (answer : σ → (q : Q) → R q × σ) :
    Routine R α → List Q → Routine R α → Prop where
  | here (p : Routine R α) : ComesTo answer p [] p
  | ask {q : Q} {onDrop : List Q} {next : R q → Routine R α} {t : σ} {qs : List Q}
      {left : Routine R α} (h : ComesTo answer (next (answer t q).1) qs left) :
      ComesTo answer (.ask q onDrop next) (q :: qs) left
  | pause {millis : Nat} {onDrop : List Q} {next : Unit → Routine R α} {qs : List Q}
      {left : Routine R α} (h : ComesTo answer (next ()) qs left) :
      ComesTo answer (.pause millis onDrop next) qs left

section ComesTo

variable {answer : σ → (q : Q) → R q × σ} {p left : Routine R α} {qs : List Q}

theorem ComesTo.trans {last : Routine R α} {qs' : List Q} (h : ComesTo answer p qs left)
    (h' : ComesTo answer left qs' last) : ComesTo answer p (qs ++ qs') last := by
  induction h with
  | here p => exact h'
  | ask _ ih => exact .ask (ih h')
  | pause _ ih => exact .pause (ih h')

theorem ComesTo.asks {sort : Q → Prop} (h : ComesTo answer p qs left) (hp : p.Asks sort) :
    ∀ q ∈ qs, sort q := by
  induction h with
  | here p => exact fun q hq => absurd hq List.not_mem_nil
  | ask _ ih =>
    intro q hq
    rcases List.mem_cons.mp hq with rfl | hq
    · exact hp.1
    · exact ih (hp.2 _) q hq
  | pause _ ih => exact ih (hp _)

/-- Of two routines one after the other, either the first is not over, or the second has
begun where the first has ended. -/
theorem ComesTo.of_bind {β : Type} {p : Routine R β} {f : β → Routine R α}
    (h : ComesTo answer (p.bind f) qs left) :
    (∃ p', ComesTo answer p qs p' ∧ left = p'.bind f) ∨
      ∃ b qs₁ qs₂, qs = qs₁ ++ qs₂ ∧ ComesTo answer p qs₁ (done b) ∧
        ComesTo answer (f b) qs₂ left := by
  induction p generalizing qs with
  | done b => exact Or.inr ⟨b, [], qs, rfl, .here _, h⟩
  | ask q onDrop next ih =>
    cases h with
    | here => exact Or.inl ⟨_, .here _, rfl⟩
    | ask h =>
      rcases ih _ h with ⟨p', hp', hleft⟩ | ⟨b, qs₁, qs₂, rfl, hp', hrest⟩
      · exact Or.inl ⟨p', .ask hp', hleft⟩
      · exact Or.inr ⟨b, q :: qs₁, qs₂, rfl, .ask hp', hrest⟩
  | pause millis onDrop next ih =>
    cases h with
    | here => exact Or.inl ⟨_, .here _, rfl⟩
    | pause h =>
      rcases ih _ h with ⟨p', hp', hleft⟩ | ⟨b, qs₁, qs₂, rfl, hp', hrest⟩
      · exact Or.inl ⟨p', .pause hp', hleft⟩
      · exact Or.inr ⟨b, qs₁, qs₂, rfl, .pause hp', hrest⟩

/-- Before its first request a routine that asks for something is where it began. -/
theorem ComesTo.eq_ask {q : Q} {onDrop : List Q} {next : R q → Routine R α}
    (h : ComesTo answer (.ask q onDrop next) [] left) : left = .ask q onDrop next := by
  cases h
  rfl

theorem comesTo_turn (answer : σ → (q : Q) → R q × σ) (p : Routine R α) (s : σ) :
    ComesTo answer p p.asked (p.turn answer s).1 := by
  cases p with
  | done a => exact .here _
  | ask q onDrop next => exact .ask (t := s) (.here _)
  | pause millis onDrop next => exact .pause (.here _)

/-- The turns of others make no difference to the tree that a routine goes down. -/
theorem comesTo_interleave (answer : σ → (q : Q) → R q × σ) {i : Nat} (schedule : List Nat)
    {ps : List (Routine R α)} (hp : ps[i]? = some p) (s : σ) :
    ∃ left, (interleave answer schedule ps s).1[i]? = some left ∧
      ComesTo answer p (requestsOf i (turns answer schedule ps s)) left := by
  induction schedule generalizing p ps s with
  | nil => exact ⟨p, hp, .here p⟩
  | cons j schedule ih =>
    cases hj : ps[j]? with
    | none =>
      rw [interleave_cons_of_none answer hj, turns_cons_of_none answer hj]
      exact ih hp s
    | some q =>
      rw [interleave_cons_of_some answer hj, turns_cons_of_some answer hj, requestsOf_append]
      by_cases hij : j = i
      · subst hij
        obtain rfl : q = p := Option.some.inj (hj.symm.trans hp)
        have hset : (ps.set j (q.turn answer s).1)[j]? = some (q.turn answer s).1 :=
          List.getElem?_set_self (List.getElem?_eq_some_iff.mp hp).1
        obtain ⟨left, hleft, hcomes⟩ := ih hset (q.turn answer s).2
        have hown : requestsOf j (q.asked.map fun x => (⟨⟨s, x⟩, j⟩ : Turn σ Q)) = q.asked := by
          cases q <;> simp [requestsOf, asked]
        rw [hown]
        exact ⟨left, hleft, (comesTo_turn answer q s).trans hcomes⟩
      · have hset : (ps.set j (q.turn answer s).1)[i]? = some p :=
          (List.getElem?_set_ne hij).trans hp
        have hother : requestsOf i (q.asked.map fun x => (⟨⟨s, x⟩, j⟩ : Turn σ Q)) = [] := by
          cases q <;> simp [requestsOf, asked, hij]
        rw [hother]
        exact ih hset (q.turn answer s).2

end ComesTo

end Routine

/-! ## Pacts -/

structure Pact (σ : Type) where
  allows : σ → σ → Prop
  refl : ∀ s, allows s s
  trans : ∀ {s t u}, allows s t → allows t u → allows s u

namespace Routine

variable {Q σ α β ε ε' : Type} {R : Q → Type}

/-- Whatever the others make of the state in the meantime, as far as the pact allows it: the
requests of the routine are fit to be made, the pact allows what they do, and the value
that it ends with is as it should be, now and later. -/
def Abides (answer : σ → (q : Q) → R q × σ) (pact : Pact σ) (fit : Moment σ Q → Prop)
    (J : α → σ → Prop) : Routine R α → σ → Prop
  | done a, s => ∀ t, pact.allows s t → J a t
  | ask q _ next, s => ∀ t, pact.allows s t → fit ⟨t, q⟩ ∧ pact.allows t (answer t q).2 ∧
      (next (answer t q).1).Abides answer pact fit J (answer t q).2
  | pause _ _ next, s => (next ()).Abides answer pact fit J s

section Abides

variable {answer : σ → (q : Q) → R q × σ} {pact : Pact σ} {fit : Moment σ Q → Prop}
  {J : α → σ → Prop} {K : β → σ → Prop} {s t : σ}

/-- What the pact allows to the others does not keep a routine from abiding by it. -/
theorem Abides.mono {p : Routine R α} (h : p.Abides answer pact fit J s)
    (hst : pact.allows s t) : p.Abides answer pact fit J t := by
  induction p with
  | done a => exact fun u htu => h u (pact.trans hst htu)
  | ask q onDrop next ih => exact fun u htu => h u (pact.trans hst htu)
  | pause millis onDrop next ih => exact ih () h

theorem Abides.imp {J' : α → σ → Prop} {p : Routine R α} (h : p.Abides answer pact fit J s)
    (hJ : ∀ a t, J a t → J' a t) : p.Abides answer pact fit J' s := by
  induction p generalizing s with
  | done a => exact fun t ht => hJ a t (h t ht)
  | ask q onDrop next ih =>
    intro t hst
    obtain ⟨hfit, hkept, hrest⟩ := h t hst
    exact ⟨hfit, hkept, ih _ hrest⟩
  | pause millis onDrop next ih => exact ih () h

theorem Abides.bind {p : Routine R α} {f : α → Routine R β} (h : p.Abides answer pact fit J s)
    (hf : ∀ a t, J a t → (f a).Abides answer pact fit K t) :
    (p.bind f).Abides answer pact fit K s := by
  induction p generalizing s with
  | done a => exact hf a s (h s (pact.refl s))
  | ask q onDrop next ih =>
    intro t hst
    obtain ⟨hfit, hkept, hrest⟩ := h t hst
    exact ⟨hfit, hkept, ih _ hrest⟩
  | pause millis onDrop next ih => exact ih () h

theorem abides_request {q : Q} {J : R q → σ → Prop}
    (h : ∀ t, pact.allows s t → fit ⟨t, q⟩ ∧ pact.allows t (answer t q).2 ∧
      ∀ u, pact.allows (answer t q).2 u → J (answer t q).1 u) :
    (request q : Routine R (R q)).Abides answer pact fit J s := h

theorem Abides.guarded {p : Routine R α} (h : p.Abides answer pact fit J s) (cleanup : List Q) :
    (p.guarded cleanup).Abides answer pact fit J s := by
  induction p generalizing s with
  | done a => exact h
  | ask q onDrop next ih =>
    intro t hst
    obtain ⟨hfit, hkept, hrest⟩ := h t hst
    exact ⟨hfit, hkept, ih _ hrest⟩
  | pause millis onDrop next ih => exact ih () h

/-- One turn of a routine. -/
theorem Abides.turn {p : Routine R α} (h : p.Abides answer pact fit J s) :
    pact.allows s (p.turn answer s).2 ∧
      (p.turn answer s).1.Abides answer pact fit J (p.turn answer s).2 ∧
      ∀ q ∈ p.asked, fit ⟨s, q⟩ ∧ (p.turn answer s).2 = (answer s q).2 := by
  cases p with
  | done a => exact ⟨pact.refl s, h, fun q hq => absurd hq List.not_mem_nil⟩
  | ask q onDrop next =>
    obtain ⟨hfit, hkept, hrest⟩ := h s (pact.refl s)
    refine ⟨hkept, hrest, fun q' hq' => ?_⟩
    obtain rfl := List.mem_singleton.mp hq'
    exact ⟨hfit, rfl⟩
  | pause millis onDrop next => exact ⟨pact.refl s, h, fun q hq => absurd hq List.not_mem_nil⟩

/-- Routines that each abide by a pact abide by it together, in whatever order they take
their turns. -/
theorem interleave_abides {J : Nat → α → σ → Prop} (schedule : List Nat)
    {ps : List (Routine R α)}
    (h : ∀ i (p : Routine R α), ps[i]? = some p → p.Abides answer pact fit (J i) s) :
    pact.allows s (interleave answer schedule ps s).2 ∧
      (∀ i (p : Routine R α), (interleave answer schedule ps s).1[i]? = some p →
        p.Abides answer pact fit (J i) (interleave answer schedule ps s).2) ∧
      ∀ m ∈ turns answer schedule ps s, fit m.toMoment ∧
        pact.allows m.state (answer m.state m.request).2 ∧
        pact.allows (answer m.state m.request).2 (interleave answer schedule ps s).2 := by
  induction schedule generalizing ps s with
  | nil => exact ⟨pact.refl s, h, fun m hm => absurd hm List.not_mem_nil⟩
  | cons j schedule ih =>
    cases hj : ps[j]? with
    | none =>
      rw [interleave_cons_of_none answer hj, turns_cons_of_none answer hj]
      exact ih h
    | some q =>
      rw [interleave_cons_of_some answer hj, turns_cons_of_some answer hj]
      obtain ⟨hkept, hrest, hasked⟩ := (h j q hj).turn
      have hnext : ∀ i (p : Routine R α), (ps.set j (q.turn answer s).1)[i]? = some p →
          p.Abides answer pact fit (J i) (q.turn answer s).2 := by
        intro i p hp
        by_cases hij : j = i
        · subst hij
          rw [List.getElem?_set_self (List.getElem?_eq_some_iff.mp hj).1] at hp
          exact Option.some.inj hp ▸ hrest
        · rw [List.getElem?_set_ne hij] at hp
          exact (h i p hp).mono hkept
      obtain ⟨hend, habide, hturns⟩ := ih hnext
      refine ⟨pact.trans hkept hend, habide, fun m hm => ?_⟩
      rcases List.mem_append.mp hm with hm | hm
      · obtain ⟨q', hq', rfl⟩ := List.mem_map.mp hm
        obtain ⟨hfit, hsame⟩ := hasked q' hq'
        refine ⟨hfit, ?_, ?_⟩
        · show pact.allows s (answer s q').2
          rw [← hsame]
          exact hkept
        · show pact.allows (answer s q').2 _
          rw [← hsame]
          exact hend
      · exact hturns m hm

/-- What a routine that has ended ended with. -/
theorem Abides.of_value? {p : Routine R α} (h : p.Abides answer pact fit J s) {a : α}
    (ha : p.value? = some a) : J a s := by
  cases p with
  | done b =>
    obtain rfl := Option.some.inj ha
    exact h s (pact.refl s)
  | ask q onDrop next => nomatch ha
  | pause millis onDrop next => nomatch ha

end Abides

/-! ## Attempts that abide by a pact -/

/-- The attempt abides by the pact, and where it succeeds its result is as it should be. -/
def Attempts (answer : σ → (q : Q) → R q × σ) (pact : Pact σ) (fit : Moment σ Q → Prop)
    (J : α → σ → Prop) (s : σ) (a : ExceptT ε (Routine R) α) : Prop :=
  a.run.Abides answer pact fit (fun result t => ∀ x, result = .ok x → J x t) s

section Attempts

variable {answer : σ → (q : Q) → R q × σ} {pact : Pact σ} {fit : Moment σ Q → Prop}
  {J : α → σ → Prop} {K : β → σ → Prop} {s : σ}

theorem attempts_pure {x : α} (h : ∀ t, pact.allows s t → J x t) :
    Attempts answer pact fit J s (pure x : ExceptT ε (Routine R) α) := by
  intro t hst y hy
  obtain rfl := Except.ok.inj hy
  exact h t hst

theorem attempts_throw {e : ε} :
    Attempts answer pact fit J s (throw e : ExceptT ε (Routine R) α) :=
  fun _ _ _ hx => nomatch hx

theorem attempts_liftRoutine {p : Routine R α} (h : p.Abides answer pact fit J s)
    (hJ : ∀ x t u, J x t → pact.allows t u → J x u) :
    Attempts answer pact fit J s (liftM p : ExceptT ε (Routine R) α) := by
  refine Abides.bind h fun x t hx u htu y hy => ?_
  obtain rfl := Except.ok.inj hy
  exact hJ x t u hx htu

theorem Attempts.bind {a : ExceptT ε (Routine R) α} {f : α → ExceptT ε (Routine R) β}
    (ha : Attempts answer pact fit J s a)
    (hf : ∀ x t, J x t → Attempts answer pact fit K t (f x)) :
    Attempts answer pact fit K s (a >>= f) := by
  refine Abides.bind ha fun result t hresult => ?_
  cases result with
  | ok x => exact hf x t (hresult x rfl)
  | error e => exact attempts_throw

theorem Attempts.mono {J' : α → σ → Prop} {a : ExceptT ε (Routine R) α}
    (ha : Attempts answer pact fit J s a) (hJ : ∀ x t, J x t → J' x t) :
    Attempts answer pact fit J' s a :=
  Abides.imp ha fun _ t hresult x hx => hJ x t (hresult x hx)

/-- A step that is made under a condition, and what comes after it in either case. -/
theorem Attempts.step {c : Prop} [Decidable c] {J : σ → Prop} {a : ExceptT ε (Routine R) Unit}
    {f : Unit → ExceptT ε (Routine R) β}
    (hmade : c → Attempts answer pact fit (fun _ t => J t) s a) (hleft : ¬ c → J s)
    (hf : ∀ t, J t → Attempts answer pact fit K t (f ())) :
    Attempts answer pact fit K s (if c then a >>= f else f ()) := by
  by_cases hc : c
  · rw [if_pos hc]
    exact (hmade hc).bind fun _ t ht => hf t ht
  · rw [if_neg hc]
    exact hf s (hleft hc)

theorem Attempts.mapError {a : ExceptT ε (Routine R) α} (ha : Attempts answer pact fit J s a)
    (hJ : ∀ x t u, J x t → pact.allows t u → J x u) (g : ε → ε') :
    Attempts answer pact fit J s (ExceptT.adapt g a) := by
  refine Abides.bind ha fun result t hresult u htu y hy => ?_
  cases result with
  | ok x =>
    obtain rfl := Except.ok.inj hy
    exact hJ x t u (hresult x rfl) htu
  | error e => nomatch hy

end Attempts

end Routine
end WarmFeed
