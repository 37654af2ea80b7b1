import Mathlib.Data.List.Pairwise
import WarmFeed.Proofs.Redis.Calls
import WarmFeed.Proofs.Redis.Session

/-!
# Statuses beside their references

Nothing tells the calls of the object store apart but the identifiers that they make, of which
a number from the counter gives the low bits only.

As long as no two calls make one identifier, what a call stores or takes away is its own.
Then every reference that is claimed leads to the status that some call was given for it, and
different references lead to different identifiers.  Identifiers can meet once the numbers
have gone round, and then they do not.
-/

namespace WarmFeed
namespace Redis
namespace Objects

def Makes (cs : List TrendCandidate) (ms : List (Turn Server Request)) (i : Nat)
    (id : ContentId) : Prop :=
  ∃ m ∈ ms, m.place = i ∧ made? cs m = some id

/-- No status that a reference leads to is written or deleted with the turn. -/
def SparesStatuses (m : Turn Server Request) : Prop :=
  ∀ reference id, m.state.Claimed reference id →
    (∀ text, m.request ≠ .single (.set (StoreKey.status id).text text)) ∧
      m.request ≠ .single (.delete (StoreKey.status id).text)

/-- What is so as long as the call at some place has come to this stage. -/
def Stage.Fits (cs : List TrendCandidate) (ms : List (Turn Server Request)) (i : Nat)
    (c : TrendCandidate) (v : Server) : Stage → Prop
  | counting remote => c.remote = some remote
  | storing remote id => c.remote = some remote ∧ Makes cs ms i id
  | claiming remote id => c.remote = some remote ∧ Makes cs ms i id ∧
    v.values.get? (StoreKey.status id).text = some (.text (remote.toLocal id).encode)
  | withdrawing id => Makes cs ms i id
  | _ => True

/-- What is stored for the reference was stored by a call that has ended: the identifier that
it made, under which its own status is stored. -/
def Led (cs : List TrendCandidate) (ms : List (Turn Server Request)) (stage : Nat → Stage)
    (v : Server) (reference : String) (x : Stored) : Prop :=
  ∃ i c remote id, cs[i]? = some c ∧ c.reference = reference ∧ c.remote = some remote ∧
    stage i = .ended (.ok (some id)) ∧ Makes cs ms i id ∧ x = .text (toString id.toNat) ∧
      v.values.get? (StoreKey.status id).text = some (.text (remote.toLocal id).encode)

structure Sound (cs : List TrendCandidate) (ms : List (Turn Server Request))
    (stage : Nat → Stage) (v : Server) : Prop where
  fits : ∀ i c, cs[i]? = some c → (stage i).Fits cs ms i c v
  led : ∀ reference x, v.values.get? (StoreKey.statusReference reference).text = some x →
    Led cs ms stage v reference x
  spared : ∀ m ∈ ms, SparesStatuses m

section Sound

variable {cs : List TrendCandidate} {ms extra : List (Turn Server Request)}
  {stage : Nat → Stage} {v w : Server} {i j : Nat} {c : TrendCandidate} {st : Stage}
  {a b id : ContentId}

theorem Makes.append (h : Makes cs ms i id) : Makes cs (ms ++ extra) i id := by
  obtain ⟨m, hm, hplace, hmade⟩ := h
  exact ⟨m, List.mem_append_left _ hm, hplace, hmade⟩

/-- Where all identifiers differ, different calls have made different ones. -/
theorem Makes.ne (hfresh : (ms.filterMap (made? cs)).Nodup) (ha : Makes cs ms i a)
    (hb : Makes cs ms j b) (hij : i ≠ j) : a ≠ b := by
  obtain ⟨m, hm, rfl, hma⟩ := ha
  obtain ⟨m', hm', rfl, hmb⟩ := hb
  have hne : m ≠ m' := fun h => hij (h ▸ rfl)
  have hall := List.pairwise_filterMap.mp hfresh
  have hsymm : Std.Symm fun (x y : Turn Server Request) =>
      ∀ a, made? cs x = some a → ∀ b, made? cs y = some b → a ≠ b :=
    ⟨fun x y h a ha b hb => (h b hb a ha).symm⟩
  exact hall.forall hm hm' hne a hma b hmb

/-- What a call that is claimed for leads to, by the identifier that is read. -/
theorem Sound.of_claimed (h : Sound cs ms stage v) {reference : String}
    (hclaimed : v.Claimed reference id) :
    ∃ i c remote, cs[i]? = some c ∧ c.reference = reference ∧ c.remote = some remote ∧
      stage i = .ended (.ok (some id)) ∧ Makes cs ms i id ∧
        v.values.get? (StoreKey.status id).text = some (.text (remote.toLocal id).encode) := by
  obtain ⟨text, htext, hread⟩ := hclaimed
  obtain ⟨i, c, remote, id', hc, href, hremote, hstage, hmakes, hx, hstored⟩ := h.led _ _ htext
  obtain rfl := Stored.text.inj hx
  rw [readId_toString] at hread
  obtain rfl := Option.some.inj (Except.ok.inj hread)
  exact ⟨i, c, remote, hc, href, hremote, hstage, hmakes, hstored⟩

theorem Stage.Fits.kept (h : st.Fits cs ms i c v)
    (hsame : ∀ id, Makes cs ms i id →
      w.values.get? (StoreKey.status id).text = v.values.get? (StoreKey.status id).text) :
    st.Fits cs (ms ++ extra) i c w := by
  cases st with
  | looking => trivial
  | counting remote => exact h
  | storing remote id => exact ⟨h.1, h.2.append⟩
  | claiming remote id => exact ⟨h.1, h.2.1.append, (hsame id h.2.1).trans h.2.2⟩
  | withdrawing id => exact Makes.append h
  | rereading => trivial
  | ended result => trivial

/-- A call that has not ended goes on to its next stage, without a change to any reference or
to a status of another call. -/
theorem Sound.goes_on (h : Sound cs ms stage v) (hopen : ∀ result, stage j ≠ .ended result)
    (hc : cs[j]? = some c)
    (hreference : ∀ reference, w.values.get? (StoreKey.statusReference reference).text =
      v.values.get? (StoreKey.statusReference reference).text)
    (hstatus : ∀ i id, i ≠ j → Makes cs ms i id →
      w.values.get? (StoreKey.status id).text = v.values.get? (StoreKey.status id).text)
    (hst : st.Fits cs (ms ++ extra) j c w) (hextra : ∀ m ∈ extra, SparesStatuses m) :
    Sound cs (ms ++ extra) (Function.update stage j st) w where
  fits i c' hc' := by
    by_cases hij : i = j
    · subst hij
      obtain rfl := Option.some.inj (hc.symm.trans hc')
      rwa [Function.update_self]
    · rw [Function.update_of_ne hij]
      exact (h.fits i c' hc').kept fun id hid => hstatus i id hij hid
  led reference x hx := by
    rw [hreference] at hx
    obtain ⟨i, c', remote, id, hc', href, hremote, hstage, hmakes, rfl, hstored⟩ := h.led _ _ hx
    have hij : i ≠ j := fun heq => hopen _ (heq ▸ hstage)
    exact ⟨i, c', remote, id, hc', href, hremote, (Function.update_of_ne hij ..).trans hstage,
      hmakes.append, rfl, (hstatus i id hij hmakes).trans hstored⟩
  spared m hm := (List.mem_append.mp hm).elim (h.spared m) (hextra m)

theorem spares_of_other {q : Command} (hset : ∀ key text, q ≠ .set key text)
    (hdelete : ∀ key, q ≠ .delete key) :
    ∀ m ∈ [(⟨⟨v, .single q⟩, j⟩ : Turn Server Request)], SparesStatuses m := by
  intro m hm reference id _
  obtain rfl := List.mem_singleton.mp hm
  exact ⟨fun text heq => hset _ _ (Request.single.inj heq),
    fun heq => hdelete _ (Request.single.inj heq)⟩

/-- The call at `j` has not ended, and `own` is the identifier that it has made. -/
structure Working (cs : List TrendCandidate) (ms : List (Turn Server Request))
    (stage : Nat → Stage) (j : Nat) (own : ContentId) : Prop where
  opened : ∀ result, stage j ≠ .ended result
  apart : ∀ i id, i ≠ j → Makes cs ms i id → id ≠ own

theorem spares_of_own (h : Sound cs ms stage v) {own : ContentId}
    (hown : Working cs ms stage j own) {q : Command}
    (hq : (∃ text, q = .set (StoreKey.status own).text text) ∨
      q = .delete (StoreKey.status own).text) :
    ∀ m ∈ [(⟨⟨v, .single q⟩, j⟩ : Turn Server Request)], SparesStatuses m := by
  intro m hm reference id hclaimed
  obtain rfl := List.mem_singleton.mp hm
  obtain ⟨i, c, remote, -, -, -, hstage, hmakes, -⟩ := h.of_claimed hclaimed
  have hij : i ≠ j := fun heq => hown.opened _ (heq ▸ hstage)
  have hne := hown.apart i id hij hmakes
  rcases hq with ⟨text, rfl⟩ | rfl
  · refine ⟨fun text' heq => hne ?_, nofun⟩
    exact StoreKey.status_injective (Command.set.inj (Request.single.inj heq)).1.symm
  · refine ⟨nofun, fun heq => hne ?_⟩
    exact StoreKey.status_injective (Command.delete.inj (Request.single.inj heq)).symm

theorem get?_increment {key key' : String} (h : key' ≠ key) (v : Server) :
    (v.increment key).2.values.get? key' = v.values.get? key' := by
  unfold Server.increment
  split
  · rfl
  · split
    · rfl
    · split
      · show (v.values.set key _).get? key' = _
        rw [Table.get?_set, if_neg h]
      · rfl

/-- A call claims a reference that nothing is stored for: it leads to the status of the call. -/
theorem Sound.claims (h : Sound cs ms stage v) (hc : cs[j]? = some c)
    {remote : RemoteStatus} (hst : stage j = .claiming remote id)
    (hextra : ∀ m ∈ extra, SparesStatuses m) :
    Sound cs (ms ++ extra) (Function.update stage j (.ended (.ok (some id))))
      (v.setText (StoreKey.statusReference c.reference).text (toString id.toNat)) where
  fits i c' hc' := by
    by_cases hij : i = j
    · subst hij
      rw [Function.update_self]
      trivial
    · rw [Function.update_of_ne hij]
      refine (h.fits i c' hc').kept fun id' _ => ?_
      exact (Table.get?_set ..).trans (if_neg (StoreKey.status_ne_statusReference id' _))
  led reference x hx := by
    have hfits := h.fits j c hc
    rw [hst] at hfits
    obtain ⟨hremote, hmakes, hstored⟩ := hfits
    have hsame : ∀ id', (v.values.set (StoreKey.statusReference c.reference).text
        (.text (toString id.toNat))).get? (StoreKey.status id').text =
          v.values.get? (StoreKey.status id').text := fun id' =>
      (Table.get?_set ..).trans (if_neg (StoreKey.status_ne_statusReference id' _))
    by_cases href : reference = c.reference
    · subst href
      have hx : (v.values.set _ _).get? _ = some x := hx
      rw [Table.get?_set, if_pos rfl] at hx
      exact ⟨j, c, remote, id, hc, rfl, hremote, Function.update_self .., hmakes.append,
        (Option.some.inj hx).symm, (hsame id).trans hstored⟩
    · have hx : (v.values.set _ _).get? _ = some x := hx
      rw [Table.get?_set, if_neg fun heq => href (StoreKey.statusReference_injective heq)] at hx
      obtain ⟨i, c', remote', id', hc', href', hremote', hstage, hmakes', rfl, hstored'⟩ :=
        h.led _ _ hx
      have hij : i ≠ j := by
        rintro rfl
        nomatch hst.symm.trans hstage
      exact ⟨i, c', remote', id', hc', href', hremote',
        (Function.update_of_ne hij ..).trans hstage, hmakes'.append, rfl,
        (hsame id').trans hstored'⟩
  spared m hm := (List.mem_append.mp hm).elim (h.spared m) (hextra m)

/-- The turn of one call, at any stage. -/
theorem Sound.next (h : Sound cs ms stage v) (hc : cs[j]? = some c) (hst : stage j = st)
    (hfresh : (ms.filterMap (made? cs)).Nodup) :
    Sound cs (ms ++ st.turns c j v) (Function.update stage j (st.next c v).1)
      (st.next c v).2 := by
  have hfits := h.fits j c hc
  rw [hst] at hfits
  have hworking : ∀ own, (∀ result, st ≠ .ended result) → Makes cs ms j own →
      Working cs ms stage j own := fun own hopen hown =>
    ⟨hst.symm ▸ hopen, fun i id hij hid => hid.ne hfresh hown hij⟩
  cases st with
  | looking =>
    refine h.goes_on (hst.symm ▸ fun _ => Stage.noConfusion) hc (fun _ => rfl)
      (fun _ _ _ _ => rfl) ?_
      (spares_of_other (fun _ _ => Command.noConfusion) fun _ => Command.noConfusion)
    unfold Stage.next
    dsimp only
    split
    · assumption
    · trivial
  | counting remote =>
    refine h.goes_on (hst.symm ▸ fun _ => Stage.noConfusion) hc
      (fun r => get?_increment (StoreKey.statusSequence_ne_statusReference r).symm v)
      (fun _ id _ _ => get?_increment (StoreKey.status_ne_statusSequence id) v) ?_
      (spares_of_other (fun _ _ => Command.noConfusion) fun _ => Command.noConfusion)
    unfold Stage.next
    dsimp only
    split
    · rename_i n hn
      refine ⟨hfits, _, List.mem_append_right _ (List.mem_singleton_self _), rfl, ?_⟩
      have htaken : taken? ⟨⟨v, .single (.increment StoreKey.statusSequence.text)⟩, j⟩ =
          some n := by
        rw [taken?, if_pos rfl, hn]
        rfl
      show (Option.bind _ _) = _
      rw [htaken]
      show (cs[j]?.bind _) = _
      rw [hc]
      show c.remote.bind _ = _
      rw [show c.remote = some remote from hfits]
      rfl
    · trivial
  | storing remote id =>
    obtain ⟨hremote, hmakes⟩ := hfits
    have hown := hworking id (fun _ => Stage.noConfusion) hmakes
    refine h.goes_on hown.opened hc (fun r => ?_) (fun i id' hij hid => ?_)
      ⟨hremote, hmakes.append, ?_⟩ (spares_of_own h hown (Or.inl ⟨_, rfl⟩))
    · exact (Table.get?_set ..).trans
        (if_neg (StoreKey.status_ne_statusReference id r).symm)
    · exact (Table.get?_set ..).trans
        (if_neg fun heq => hown.apart i id' hij hid (StoreKey.status_injective heq))
    · exact (Table.get?_set ..).trans (if_pos rfl)
  | claiming remote id =>
    have hother := spares_of_other (v := v) (j := j)
      (q := .setNew (StoreKey.statusReference c.reference).text (toString id.toNat))
      (fun _ _ => Command.noConfusion) fun _ => Command.noConfusion
    unfold Stage.next
    dsimp only
    split
    · exact h.goes_on (hst.symm ▸ fun _ => Stage.noConfusion) hc (fun _ => rfl)
        (fun _ _ _ _ => rfl) hfits.2.1.append hother
    · exact h.claims hc hst hother
  | withdrawing id =>
    have hown := hworking id (fun _ => Stage.noConfusion) hfits
    refine h.goes_on hown.opened hc (fun r => ?_) (fun i id' hij hid => ?_) trivial
      (spares_of_own h hown (Or.inr rfl))
    · exact (Table.get?_erase ..).trans
        (if_neg (StoreKey.status_ne_statusReference id r).symm)
    · exact (Table.get?_erase ..).trans
        (if_neg fun heq => hown.apart i id' hij hid (StoreKey.status_injective heq))
  | rereading =>
    exact h.goes_on (hst.symm ▸ fun _ => Stage.noConfusion) hc (fun _ => rfl)
      (fun _ _ _ _ => rfl) trivial
      (spares_of_other (fun _ _ => Command.noConfusion) fun _ => Command.noConfusion)
  | ended result =>
    show Sound cs (ms ++ []) (Function.update stage j (.ended result)) v
    rw [List.append_nil, ← hst, Function.update_eq_self]
    exact h

end Sound

structure Intact (cs : List TrendCandidate) (ms : List (Turn Server Request)) (v : Server) :
    Prop where
  /-- Different references lead to different identifiers. -/
  apart : ∀ reference reference' id, v.Claimed reference id → v.Claimed reference' id →
    reference = reference'
  /-- Under the identifier, the status that came along with the reference is stored. -/
  stored : ∀ reference id, v.Claimed reference id → ∃ c ∈ cs, ∃ remote,
    c.reference = reference ∧ c.remote = some remote ∧
      v.values.get? (StoreKey.status id).text = some (.text (remote.toLocal id).encode)
  /-- No call has written or deleted a status that some reference led to. -/
  spared : ∀ m ∈ ms, SparesStatuses m

theorem Sound.intact {cs : List TrendCandidate} {ms : List (Turn Server Request)}
    {stage : Nat → Stage} {v : Server} (h : Sound cs ms stage v)
    (hfresh : (ms.filterMap (made? cs)).Nodup) : Intact cs ms v where
  apart reference reference' id hid hid' := by
    obtain ⟨i, c, -, hc, rfl, -, -, hmakes, -⟩ := h.of_claimed hid
    obtain ⟨j, d, -, hd, rfl, -, -, hmakes', -⟩ := h.of_claimed hid'
    by_cases hij : i = j
    · subst hij
      rw [Option.some.inj (hc.symm.trans hd)]
    · exact absurd rfl (hmakes.ne hfresh hmakes' hij)
  stored reference id hid := by
    obtain ⟨i, c, remote, hc, href, hremote, -, -, hstored⟩ := h.of_claimed hid
    exact ⟨c, List.mem_of_getElem? hc, remote, href, hremote, hstored⟩
  spared := h.spared

/-! ## Calls on an empty server -/

section Calls

variable (cs : List TrendCandidate) (schedule : List Nat)

abbrev turnsOn : List (Turn Server Request) :=
  Routine.turns Server.answerRequest schedule (cs.map fun c => (resolveOrCreate c).run) ∅

abbrev serverAfter : Server :=
  (Routine.interleave Server.answerRequest schedule (cs.map fun c => (resolveOrCreate c).run) ∅).2

variable {cs schedule}

/-- Numbers are taken one after the other, so few of them give identifiers that differ. -/
theorem nodup_made_of_few
    (hfew : ((turnsOn cs schedule).filterMap taken?).length ≤ 2 ^ Snowflake.sequenceBits) :
    ((turnsOn cs schedule).filterMap (made? cs)).Nodup := by
  let P (ms : List (Turn Server Request)) (_ : Nat → Stage) (v : Server) : Prop :=
    ∃ k < 0x8000000000000000, Counted k ms v
  have hfirst : P [] (fun _ => .looking) ∅ := ⟨0, by decide, rfl, rfl⟩
  obtain ⟨-, k, -, hcounted⟩ := calls_keep (P := P)
    (fun ms stage v i c ⟨k, hk, h⟩ _ => counted_next h hk c i (stage i)) schedule hfirst
  refine hcounted.nodup_made ?_
  have hlength := congrArg List.length hcounted.taken
  rw [List.length_map, List.length_range] at hlength
  exact hlength ▸ hfew

theorem intact_of_nodup_made (hfresh : ((turnsOn cs schedule).filterMap (made? cs)).Nodup) :
    Intact cs (turnsOn cs schedule) (serverAfter cs schedule) := by
  -- Identifiers that differ in the end have differed all the time.
  let P (ms : List (Turn Server Request)) (stage : Nat → Stage) (v : Server) : Prop :=
    (ms.filterMap (made? cs)).Nodup → Sound cs ms stage v
  have hfirst : P [] (fun _ => .looking) ∅ := fun _ =>
    ⟨fun _ _ _ => trivial, fun _ _ hx => (nomatch hx), fun _ hm => (nomatch hm)⟩
  have hstep : ∀ ms stage v i c, P ms stage v → cs[i]? = some c →
      P (ms ++ (stage i).turns c i v) (Function.update stage i ((stage i).next c v).1)
        ((stage i).next c v).2 := by
    intro ms stage v i c h hc hnodup
    rw [List.filterMap_append] at hnodup
    have hbefore := (List.nodup_append.mp hnodup).1
    exact (h hbefore).next hc rfl hbefore
  obtain ⟨stage, hsound⟩ := calls_keep hstep schedule hfirst
  exact (hsound hfresh).intact hfresh

end Calls

/-- However many calls resolve whatever candidates, and in whatever order their commands are
carried out: as long as no two of them have made one identifier, every reference that is
claimed leads to a status that came along with it, different references lead to different
statuses, and no call writes or deletes a status that a reference leads to.  All identifiers
differ as long as the low bits have room for the numbers that were taken. -/
theorem statuses_stay_apart {σ : Type} {answer : σ → (r : Request) → r.Reply × σ}
    {view : σ → Server} (h : ActsAs answer view) {s : σ} (hs : view s = ∅)
    (cs : List TrendCandidate) (schedule : List Nat) :
    let calls := cs.map fun c => (resolveOrCreate c).run
    let ms := (Routine.turns answer schedule calls s).map (Turn.seen view)
    let after := view (Routine.interleave answer schedule calls s).2
    ((ms.filterMap taken?).length ≤ 2 ^ Snowflake.sequenceBits →
        (ms.filterMap (made? cs)).Nodup) ∧
      ((ms.filterMap (made? cs)).Nodup → Intact cs ms after) := by
  intro calls ms after
  obtain ⟨hafter, hseen⟩ := h.seenAs.interleave schedule calls s
  rw [hs] at hafter hseen
  have hms : ms = turnsOn cs schedule := hseen
  have hend : after = serverAfter cs schedule := congrArg Prod.snd hafter
  rw [hms, hend]
  exact ⟨nodup_made_of_few, intact_of_nodup_made⟩

def further : TrendCandidate :=
  ⟨"https://sea.example/2", none, some { (default : RemoteStatus) with content := "later" }⟩

theorem statuses_stay_apart_race :
    let calls := [contested, contested, further].map fun c => (resolveOrCreate c).run
    let schedule := [0, 1, 0, 1, 0, 1, 2, 2, 0, 1, 2, 2, 1, 1]
    let ms := Routine.turns Server.answerRequest schedule calls ∅
    let after := (Routine.interleave Server.answerRequest schedule calls ∅).2
    (ms.filterMap taken?).length ≤ 2 ^ Snowflake.sequenceBits ∧
      (ms.filterMap (made? [contested, contested, further])).Nodup ∧
      Intact [contested, contested, further] ms after ∧
      after.Claimed contested.reference 1 ∧ after.Claimed further.reference 3 := by
  intro calls schedule ms after
  have hfew : (ms.filterMap taken?).length ≤ 2 ^ Snowflake.sequenceBits := by decide +kernel
  obtain ⟨hfresh, hintact⟩ := statuses_stay_apart (s := (∅ : Server)) actsAs_answerRequest rfl
    [contested, contested, further] schedule
  rw [Turn.map_seen_id] at hfresh hintact
  exact ⟨hfew, hfresh hfew, hintact (hfresh hfew), ⟨"1", by decide +kernel, by decide +kernel⟩,
    ⟨"3", by decide +kernel, by decide +kernel⟩⟩

/-! ## When the numbers go round -/

def Stage.alone (c : TrendCandidate) : Nat → Stage → Server → Stage × Server
  | 0, st, v => (st, v)
  | n + 1, st, v => alone c n (st.next c v).1 (st.next c v).2

theorem interleave_replicate (c : TrendCandidate) (n : Nat)
    {ps : List (Exchange (Except StoreError (Option ContentId)))} {i : Nat} {st : Stage}
    (hp : ps[i]? = some (st.rest c)) (v : Server) :
    Routine.interleave Server.answerRequest (List.replicate n i) ps v =
      (ps.set i ((Stage.alone c n st v).1.rest c), (Stage.alone c n st v).2) := by
  induction n generalizing ps st v with
  | zero =>
    obtain ⟨hlt, hget⟩ := List.getElem?_eq_some_iff.mp hp
    show (ps, v) = (ps.set i (st.rest c), v)
    rw [← hget, List.set_getElem_self]
  | succ n ih =>
    have hset : (ps.set i ((st.next c v).1.rest c))[i]? = some ((st.next c v).1.rest c) :=
      List.getElem?_set_self (List.getElem?_eq_some_iff.mp hp).1
    rw [List.replicate_succ, Routine.interleave_cons_of_some _ hp, Stage.turn_rest, ih hset,
      List.set_set]
    rfl

/-- The server with one status, for which one reference is claimed, when so many numbers have
been taken. -/
def lone (k : Nat) : Server :=
  ⟨⟨[(StoreKey.statusSequence.text, .text (toString (k : Int))),
    ((StoreKey.status 1).text, .text ((default : RemoteStatus).toLocal 1).encode),
    ((StoreKey.statusReference contested.reference).text, .text "1")]⟩⟩

theorem alone_contested : Stage.alone contested 4 .looking ∅ = (.ended (.ok (some 1)), lone 1) :=
  rfl

theorem lookedUp_lone (k : Nat) : lookedUp (lone k) further.reference = .ok none := by
  have hnone : (lone k).values.get? (StoreKey.statusReference further.reference).text = none := by
    show List.lookup _ [_, _, _] = _
    rw [Table.lookup_cons_pair, if_neg (by decide), Table.lookup_cons_pair, if_neg (by decide),
      Table.lookup_cons_pair, if_neg (by decide)]
    rfl
  rw [lookedUp, Server.text, hnone]
  rfl

/-- A call that looks up the other reference and stops when it has its number. -/
theorem alone_further {k : Nat} (hk : 0 < k) (hroom : k < 0x100000000) :
    Stage.alone further 2 .looking (lone k) =
      (.storing { (default : RemoteStatus) with content := "later" }
        (Snowflake.id .epoch (UInt64.ofInt (k + 1))), lone (k + 1)) := by
  have hcounter : (lone k).values.get? StoreKey.statusSequence.text = counter k := by
    show List.lookup _ [_, _, _] = _
    rw [Table.lookup_cons_pair, if_pos rfl, counter, if_neg (by omega)]
  have hnext := increment_counter hcounter (by omega)
  rw [if_pos (by omega)] at hnext
  have hlooked : Stage.looking.next further (lone k) =
      (.counting { (default : RemoteStatus) with content := "later" }, lone k) := by
    rw [Stage.next, lookedUp_lone]
    rfl
  rw [Stage.alone, Stage.alone, Stage.alone, hlooked, Stage.next, hnext]
  rfl

theorem Stage.alone_add (c : TrendCandidate) (m n : Nat) (st : Stage) (v : Server) :
    alone c (m + n) st v = alone c n (alone c m st v).1 (alone c m st v).2 := by
  induction m generalizing st v with
  | zero => rw [Nat.zero_add, alone]
  | succ m ih => rw [Nat.succ_add_eq_add_succ, Nat.add_succ, alone, ih, alone]

def idle (n : Nat) : List Nat := (List.range n).flatMap fun i => List.replicate 2 (i + 1)

theorem interleave_idle {n : Nat} (hn : n < 0x10000)
    {ps : List (Exchange (Except StoreError (Option ContentId)))}
    (hps : ∀ i < n, ps[i + 1]? = some (Stage.looking.rest further)) :
    (Routine.interleave Server.answerRequest (idle n) ps (lone 1)).2 = lone (n + 1) ∧
      ∀ j > n, (Routine.interleave Server.answerRequest (idle n) ps (lone 1)).1[j]? = ps[j]? := by
  induction n with
  | zero => exact ⟨rfl, fun _ _ => rfl⟩
  | succ n ih =>
    obtain ⟨hserver, hothers⟩ := ih (by omega) fun i hi => hps i (by omega)
    have hnext := (hothers (n + 1) (by omega)).trans (hps n (by omega))
    have hidle : idle (n + 1) = idle n ++ List.replicate 2 (n + 1) := by
      rw [idle, List.range_succ, List.flatMap_append]
      simp [idle]
    rw [hidle, Routine.interleave_append, hserver, interleave_replicate further 2 hnext,
      alone_further (by omega) (by omega)]
    refine ⟨rfl, fun j hj => ?_⟩
    rw [List.getElem?_set_ne (by omega)]
    exact hothers j (by omega)

/-- A call on one reference and as many on another as there are numbers before the low bits
come again. -/
def crowd : List TrendCandidate := contested :: List.replicate 0x10000 further

/-- The first call ends, all others but the last stop when they have their number, and then
the last one ends. -/
def goingRound : List Nat :=
  List.replicate 4 0 ++ idle 0xffff ++ List.replicate 4 0x10000

def crowded : Server :=
  ((lone 0x10001).setText (StoreKey.status 1).text
    ({ (default : RemoteStatus) with content := "later" }.toLocal 1).encode).setText
      (StoreKey.statusReference further.reference).text "1"

theorem alone_last :
    Stage.alone further 4 .looking (lone 0x10000) = (.ended (.ok (some 1)), crowded) := by
  rw [Stage.alone_add further 2 2, alone_further (by decide) (by decide)]
  rfl

theorem interleave_crowd :
    (Routine.interleave Server.answerRequest goingRound
      (crowd.map fun c => (resolveOrCreate c).run) ∅).2 = crowded := by
  have hcrowd : ∀ i < 0x10000, (crowd.map fun c => (resolveOrCreate c).run)[i + 1]? =
      some (Stage.looking.rest further) := by
    intro i hi
    rw [crowd, List.map_cons, List.getElem?_cons_succ, List.getElem?_map, List.getElem?_replicate,
      if_pos hi]
    rfl
  have hfirst : (crowd.map fun c => (resolveOrCreate c).run)[0]? =
      some (Stage.looking.rest contested) := rfl
  rw [goingRound, List.append_assoc, Routine.interleave_append,
    interleave_replicate contested 4 hfirst, alone_contested, Routine.interleave_append]
  have hrest : ∀ i < 0x10000, ((crowd.map fun c => (resolveOrCreate c).run).set 0
      ((Stage.ended (.ok (some 1))).rest contested))[i + 1]? =
        some (Stage.looking.rest further) := fun i hi =>
    (List.getElem?_set_ne (by omega)).trans (hcrowd i hi)
  obtain ⟨hserver, hothers⟩ := interleave_idle (n := 0xffff) (by decide)
    fun i hi => hrest i (by omega)
  have hlast := (hothers 0x10000 (by decide)).trans (hrest 0xffff (by decide))
  rw [hserver, interleave_replicate further 4 hlast, alone_last]

/-- With one number more than the low bits have room for, two references can come to lead to
one identifier, under which the status of only one of them is stored. -/
theorem statuses_meet :
    let calls := crowd.map fun c => (resolveOrCreate c).run
    let ms := Routine.turns Server.answerRequest goingRound calls ∅
    let after := (Routine.interleave Server.answerRequest goingRound calls ∅).2
    after.Claimed contested.reference 1 ∧ after.Claimed further.reference 1 ∧
      ¬ Intact crowd ms after := by
  intro calls ms after
  have hfirst : after.Claimed contested.reference 1 := by
    rw [show after = crowded from interleave_crowd]
    exact ⟨"1", by decide +kernel, by decide +kernel⟩
  have hlast : after.Claimed further.reference 1 := by
    rw [show after = crowded from interleave_crowd]
    exact ⟨"1", by decide +kernel, by decide +kernel⟩
  refine ⟨hfirst, hlast, fun hintact => ?_⟩
  exact absurd (hintact.apart _ _ _ hfirst hlast) (by decide)

end Objects
end Redis
end WarmFeed
