import Mathlib.Data.List.Nodup
import Mathlib.Logic.Function.Basic
import WarmFeed.Proofs.Redis.References
import WarmFeed.Proofs.Snowflake

/-!
# Calls of the object store, stage by stage

A call that comes across an unknown reference with a status takes a number from the counter,
makes an identifier from it, stores the status under that identifier and only then claims the
reference.  A call whose claim comes too late takes its status away again.

Between two commands a call is at one of seven stages.  What it sends next and what becomes of
it depend on the stage and the server alone, so calls that take turns are a list of stages
over one server.  The numbers they take come one after the other, and identifiers made from
them differ until the low bits of the numbers have gone round.
-/

namespace WarmFeed
namespace Redis
namespace Objects

/-! ## The stages of a call -/

inductive Stage where
  | looking
  | counting (remote : RemoteStatus)
  | storing (remote : RemoteStatus) (id : ContentId)
  | claiming (remote : RemoteStatus) (id : ContentId)
  | withdrawing (id : ContentId)
  | rereading
  | ended (result : Except StoreError (Option ContentId))

def claim (reference : String) (id : ContentId) : Attempt (Option ContentId) := do
  let claimed ← ask (.setNew (StoreKey.statusReference reference).text (toString id.toNat))
  if claimed then return some id
  ask (.delete (StoreKey.status id).text)
  lookUp reference

def lookedUp (v : Server) (reference : String) : Except StoreError (Option ContentId) :=
  (v.text (StoreKey.statusReference reference).text).bind readId

theorem turn_ask_bind {β : Type} (c : Command) (f : c.Reply → Attempt β) (v : Server) :
    (ask c >>= f).run.turn Server.answerRequest v =
      ((liftM (v.answer c).1 >>= f : Attempt β).run, (v.answer c).2) := rfl

theorem turn_lookUp_bind {β : Type} (reference : String) (f : Option ContentId → Attempt β)
    (v : Server) :
    (lookUp reference >>= f).run.turn Server.answerRequest v =
      ((liftM (lookedUp v reference) >>= f : Attempt β).run, v) := by
  show (Routine.bind (ExceptT.bindCont (fun text => (liftM (readId text) : Attempt _))
    (v.text (StoreKey.statusReference reference).text)) (ExceptT.bindCont f), v) = _
  rw [lookedUp]
  cases v.text (StoreKey.statusReference reference).text <;> rfl

namespace Stage

variable (c : TrendCandidate)

/-- What is left of a call at this stage. -/
def rest : Stage → Exchange (Except StoreError (Option ContentId))
  | looking => (resolveOrCreate c).run
  | counting remote => (create c.reference remote).run
  | storing remote id => (do put (remote.toLocal id); claim c.reference id : Attempt _).run
  | claiming _ id => (claim c.reference id).run
  | withdrawing id =>
    (do ask (.delete (StoreKey.status id).text); lookUp c.reference : Attempt _).run
  | rereading => (lookUp c.reference).run
  | ended result => .done result

def command? : Stage → Option Command
  | looking => some (.get (StoreKey.statusReference c.reference).text)
  | counting _ => some (.increment StoreKey.statusSequence.text)
  | storing remote id =>
    some (.set (StoreKey.status id).text (remote.toLocal id).encode)
  | claiming _ id =>
    some (.setNew (StoreKey.statusReference c.reference).text (toString id.toNat))
  | withdrawing id => some (.delete (StoreKey.status id).text)
  | rereading => some (.get (StoreKey.statusReference c.reference).text)
  | ended _ => none

def next (v : Server) : Stage → Stage × Server
  | looking =>
    (match lookedUp v c.reference, c.remote with
      | .ok none, some remote => counting remote
      | result, _ => ended result, v)
  | counting remote =>
    (match (v.increment StoreKey.statusSequence.text).1 with
      | .ok n => storing remote (Snowflake.id remote.createdAt (UInt64.ofInt n))
      | .error e => ended (.error e), (v.increment StoreKey.statusSequence.text).2)
  | storing remote id =>
    (claiming remote id, v.setText (StoreKey.status id).text (remote.toLocal id).encode)
  | claiming _ id =>
    let key := (StoreKey.statusReference c.reference).text
    if v.values.contains key then (withdrawing id, v)
    else (ended (.ok (some id)), v.setText key (toString id.toNat))
  | withdrawing id => (rereading, ⟨v.values.erase (StoreKey.status id).text⟩)
  | rereading => (ended (lookedUp v c.reference), v)
  | ended result => (ended result, v)

theorem asked_rest (st : Stage) :
    (st.rest c).asked = (st.command? c).toList.map Request.single := by
  cases st <;> rfl

theorem turn_rest (st : Stage) (v : Server) :
    (st.rest c).turn Server.answerRequest v =
      ((st.next c v).1.rest c, (st.next c v).2) := by
  cases st with
  | looking =>
    refine (turn_lookUp_bind c.reference _ v).trans ?_
    obtain ⟨reference, score, remote⟩ := c
    unfold next
    generalize lookedUp v reference = result
    cases result with
    | error e => rfl
    | ok found => cases found <;> cases remote <;> rfl
  | counting remote =>
    refine (turn_ask_bind (.increment _) _ v).trans ?_
    unfold next
    show ((liftM (v.increment _).1 >>= _ : Attempt _).run, (v.increment _).2) = _
    cases (v.increment StoreKey.statusSequence.text).1 <;> rfl
  | storing remote id => rfl
  | claiming remote id =>
    refine (turn_ask_bind (.setNew _ _) _ v).trans ?_
    unfold next Server.answer
    dsimp only
    split <;> rfl
  | withdrawing id => rfl
  | rereading =>
    rw [rest, ← bind_pure (lookUp c.reference), turn_lookUp_bind]
    unfold next
    cases lookedUp v c.reference <;> rfl
  | ended result => rfl

end Stage

/-! ## Calls that take turns -/

def taken? (m : Turn Server Request) : Option Int :=
  if m.request = .single (.increment StoreKey.statusSequence.text) then
    (m.state.increment StoreKey.statusSequence.text).1.toOption
  else none

/-- The identifier that the call whose turn it is makes from the number that it takes. -/
def made? (cs : List TrendCandidate) (m : Turn Server Request) : Option ContentId := do
  let n ← taken? m
  let c ← cs[m.place]?
  let remote ← c.remote
  return Snowflake.id remote.createdAt (UInt64.ofInt n)

def Stage.turns (c : TrendCandidate) (i : Nat) (v : Server) (st : Stage) :
    List (Turn Server Request) :=
  (st.command? c).toList.map fun q => ⟨⟨v, .single q⟩, i⟩

def AtStages (cs : List TrendCandidate) (stage : Nat → Stage)
    (ps : List (Exchange (Except StoreError (Option ContentId)))) : Prop :=
  ∀ i, ps[i]? = cs[i]?.map fun c => (stage i).rest c

section Calls

variable {cs : List TrendCandidate}

/-- Calls go from stage to stage, each in its own turns.  What holds at first and is carried
on by every stage holds of all their turns together. -/
theorem calls_keep {P : List (Turn Server Request) → (Nat → Stage) → Server → Prop}
    (hstep : ∀ ms stage v i c, P ms stage v → cs[i]? = some c →
      P (ms ++ (stage i).turns c i v) (Function.update stage i ((stage i).next c v).1)
        ((stage i).next c v).2)
    (schedule : List Nat) {v : Server} (hv : P [] (fun _ => .looking) v) :
    ∃ stage, P (Routine.turns Server.answerRequest schedule
        (cs.map fun c => (resolveOrCreate c).run) v) stage
      (Routine.interleave Server.answerRequest schedule
        (cs.map fun c => (resolveOrCreate c).run) v).2 := by
  let Q ms ps v := ∃ stage, AtStages cs stage ps ∧ P ms stage v
  have hfirst : Q [] (cs.map fun c => (resolveOrCreate c).run) v :=
    ⟨fun _ => .looking, fun i => List.getElem?_map, hv⟩
  refine (Routine.interleave_keeps (P := Q) (fun ms ps v i p hQ hp => ?_) schedule hfirst).imp
    fun stage h => h.2
  obtain ⟨stage, hps, hP⟩ := hQ
  have hi := hps i
  rw [hp] at hi
  obtain ⟨c, hc, rfl⟩ := Option.map_eq_some_iff.mp hi.symm
  rw [Stage.turn_rest, Stage.asked_rest, List.map_map]
  refine ⟨_, fun j => ?_, hstep ms stage v i c hP hc⟩
  by_cases hij : i = j
  · subst hij
    rw [List.getElem?_set_self (List.getElem?_eq_some_iff.mp hp).1, Function.update_self, hc]
    rfl
  · rw [List.getElem?_set_ne hij, Function.update_of_ne (Ne.symm hij)]
    exact hps j

end Calls

/-! ## Numbers from the counter -/

theorem parseWhole?_toString {n : Nat} (hn : n < 0x10000000000000000) :
    Text.parseWhole? (toString (n : Int)) = some (n : Int) := by
  show Text.parseWhole? (toString n) = _
  unfold Text.parseWhole?
  split
  · rename_i digits hchars
    rw [Text.toList_toString] at hchars
    have hmem : '-' ∈ Nat.toDigits 10 n := hchars ▸ List.mem_cons_self
    exact absurd (Text.isDigit_of_mem_toDigits hmem) (by decide)
  · rw [parseWord_toString hn]
    rfl

def counter (k : Nat) : Option Stored :=
  if k = 0 then none else some (.text (toString (k : Int)))

theorem increment_counter {v : Server} {k : Nat}
    (h : v.values.get? StoreKey.statusSequence.text = counter k) (hk : k < 0x8000000000000000) :
    v.increment StoreKey.statusSequence.text =
      if (k : Int) + 1 < 0x8000000000000000 then
        (.ok ((k : Int) + 1),
          v.setText StoreKey.statusSequence.text (toString ((k : Int) + 1)))
      else (.error Server.notANumber, v) := by
  unfold counter at h
  unfold Server.increment Server.text
  rw [h]
  by_cases hzero : k = 0
  · subst hzero
    rfl
  · rw [if_neg hzero]
    dsimp only [Option.getD_some]
    rw [parseWhole?_toString (by omega)]

/-- So many numbers have been taken, one after the other. -/
structure Counted (k : Nat) (ms : List (Turn Server Request)) (v : Server) : Prop where
  taken : ms.filterMap taken? = (List.range k).map fun (n : Nat) => (n : Int) + 1
  counter : v.values.get? StoreKey.statusSequence.text = counter k

section Numbers

variable {cs : List TrendCandidate} {ms : List (Turn Server Request)} {v w : Server} {k : Nat}

theorem Counted.kept (h : Counted k ms v) {extra : List (Turn Server Request)}
    (hextra : ∀ m ∈ extra, taken? m = none)
    (hsame : w.values.get? StoreKey.statusSequence.text =
      v.values.get? StoreKey.statusSequence.text) : Counted k (ms ++ extra) w where
  taken := by
    rw [List.filterMap_append, h.taken, List.filterMap_eq_nil_iff.mpr hextra, List.append_nil]
  counter := hsame.trans h.counter

theorem counted_next (h : Counted k ms v) (hk : k < 0x8000000000000000) (c : TrendCandidate)
    (i : Nat) (st : Stage) :
    ∃ k' < 0x8000000000000000, Counted k' (ms ++ st.turns c i v) (st.next c v).2 := by
  have htaken : ∀ (c : Command), c ≠ .increment StoreKey.statusSequence.text →
      ∀ m ∈ [(⟨⟨v, .single c⟩, i⟩ : Turn Server Request)], taken? m = none := by
    intro c hc m hm
    obtain rfl := List.mem_singleton.mp hm
    exact if_neg fun heq => hc (Request.single.inj heq)
  cases st with
  | counting remote =>
    have hnumber : ∀ m ∈ [(⟨⟨v, .single (.increment StoreKey.statusSequence.text)⟩, i⟩ :
        Turn Server Request)], taken? m =
          (v.increment StoreKey.statusSequence.text).1.toOption := by
      intro m hm
      obtain rfl := List.mem_singleton.mp hm
      exact if_pos rfl
    have hnext := increment_counter h.counter hk
    show ∃ k' < 0x8000000000000000, Counted k' (ms ++ [_]) (v.increment _).2
    by_cases hroom : (k : Int) + 1 < 0x8000000000000000
    · rw [if_pos hroom] at hnext
      rw [hnext] at hnumber ⊢
      refine ⟨k + 1, by omega, ?_, ?_⟩
      · rw [List.filterMap_append, h.taken, List.filterMap_cons_some
          (hnumber _ List.mem_cons_self), List.range_succ, List.map_append]
        rfl
      · show (v.values.set _ _).get? _ = _
        rw [Table.get?_set, if_pos rfl, counter, if_neg k.succ_ne_zero]
        rfl
    · rw [if_neg hroom] at hnext
      rw [hnext] at hnumber ⊢
      exact ⟨k, hk, h.kept hnumber rfl⟩
  | looking => exact ⟨k, hk, h.kept (htaken _ nofun) rfl⟩
  | rereading => exact ⟨k, hk, h.kept (htaken _ nofun) rfl⟩
  | ended result => exact ⟨k, hk, h.kept nofun rfl⟩
  | storing remote id =>
    refine ⟨k, hk, h.kept (htaken _ nofun) ?_⟩
    show (v.values.set _ _).get? _ = _
    rw [Table.get?_set, if_neg (StoreKey.status_ne_statusSequence id).symm]
  | claiming remote id =>
    refine ⟨k, hk, h.kept (htaken _ nofun) ?_⟩
    unfold Stage.next
    dsimp only
    split
    · rfl
    · show (v.values.set _ _).get? _ = _
      rw [Table.get?_set, if_neg (StoreKey.statusSequence_ne_statusReference _)]
  | withdrawing id =>
    refine ⟨k, hk, h.kept (htaken _ nofun) ?_⟩
    show (v.values.erase _).get? _ = _
    rw [Table.get?_erase, if_neg (StoreKey.status_ne_statusSequence id).symm]

theorem made?_eq_some {m : Turn Server Request} {id : ContentId} (h : made? cs m = some id) :
    ∃ n c remote, taken? m = some n ∧ cs[m.place]? = some c ∧ c.remote = some remote ∧
      id = Snowflake.id remote.createdAt (UInt64.ofInt n) := by
  obtain ⟨n, hn, h⟩ := Option.bind_eq_some_iff.mp h
  obtain ⟨c, hc, h⟩ := Option.bind_eq_some_iff.mp h
  obtain ⟨remote, hremote, h⟩ := Option.bind_eq_some_iff.mp h
  exact ⟨n, c, remote, hn, hc, hremote, (Option.some.inj h).symm⟩

/-- As long as the numbers have not gone round, all identifiers differ. -/
theorem Counted.nodup_made (h : Counted k ms v) (hk : k ≤ 2 ^ Snowflake.sequenceBits) :
    (ms.filterMap (made? cs)).Nodup := by
  have hdistinct : ms.Pairwise fun m m' =>
      ∀ n, taken? m = some n → ∀ n', taken? m' = some n' → n ≠ n' := by
    rw [← List.pairwise_filterMap, h.taken]
    refine List.Nodup.map (fun a b hab => ?_) List.nodup_range
    exact Int.ofNat.inj ((Int.add_left_inj 1).mp hab)
  have hrange : ∀ m ∈ ms, ∀ n, taken? m = some n → 1 ≤ n ∧ n ≤ 65536 := by
    intro m hm n hn
    have hmem : n ∈ ms.filterMap taken? := List.mem_filterMap.mpr ⟨m, hm, hn⟩
    rw [h.taken] at hmem
    obtain ⟨a, ha, rfl⟩ := List.mem_map.mp hmem
    have hak : a < k := List.mem_range.mp ha
    have hk' : k ≤ 65536 := hk
    omega
  rw [List.Nodup, List.pairwise_filterMap]
  refine hdistinct.imp_of_mem fun {m m'} hm hm' hne id hid id' hid' heq => ?_
  obtain ⟨n, c, remote, hn, -, -, rfl⟩ := made?_eq_some hid
  obtain ⟨n', c', remote', hn', -, -, rfl⟩ := made?_eq_some hid'
  have hlow := ((Snowflake.id_eq_iff _ _ _ _).mp heq).1
  have hnrange := hrange m hm n hn
  have hnrange' := hrange m' hm' n' hn'
  refine hne n hn n' hn' ?_
  have hword : ∀ n : Int, (UInt64.ofInt n).toNat = (n % 2 ^ 64).toNat % 2 ^ 64 := fun n =>
    UInt64.toNat_ofNat'
  rw [hword, hword] at hlow
  have hlow : _ % 65536 = _ % 65536 := hlow
  omega

end Numbers

end Objects
end Redis
end WarmFeed
