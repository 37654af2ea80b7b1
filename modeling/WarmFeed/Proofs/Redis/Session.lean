import WarmFeed.Proofs.Redis.Rows
import WarmFeed.Proofs.Routine

/-!
# Attempts carried out on a server

Counting does not concern the server, so an attempt that sends one command has the
answer of that command.  A set that is changed is the only value that changes.

A service need not be such a server.  If it acts as the server that is seen of its state,
then what an attempt comes to on it is what it comes to on that server.
-/

namespace WarmFeed
namespace Redis

variable {α β : Type}

def carryOut (v : Server) (a : Attempt α) : Except StoreError α × Server :=
  Routine.attempt Server.answerRequest v a

section CarryOut

theorem carryOut_pure (v : Server) (x : α) : carryOut v (pure x) = (.ok x, v) := rfl

theorem carryOut_lift (v : Server) (r : Except StoreError α) :
    carryOut v (liftM r : Attempt α) = (r, v) := rfl

theorem carryOut_bind_ok {v w : Server} {a : Attempt α} {f : α → Attempt β} {x : α}
    (h : carryOut v a = (.ok x, w)) : carryOut v (a >>= f) = carryOut w (f x) :=
  Routine.attempt_bind_ok h

theorem carryOut_counted (v : Server) (operation : String) (counting : Counting)
    (r : Except StoreError α) : carryOut v (counted operation counting r) = (r, v) := by
  cases r with
  | error e => rfl
  | ok x => cases counting <;> rfl

/-- A command that is sent has its answer, however it is counted. -/
theorem carryOut_send (v : Server) (operation : String) (counting : Counting) (c : Command) :
    carryOut v (send operation counting c) = v.answer c :=
  carryOut_counted (v.answer c).2 operation counting (v.answer c).1

theorem carryOut_sendAll (v : Server) (operation : String) (counting : Counting)
    (cs : List Command) : carryOut v (sendAll operation counting cs) = v.answerAll cs :=
  carryOut_counted (v.answerAll cs).2 operation counting (v.answerAll cs).1

end CarryOut

/-! ## Services -/

section Services

variable {σ : Type} {answer : σ → (r : Request) → r.Reply × σ} {view : σ → Server}

/-- Commands are carried out as on the server that is seen of the state: one at a time, those of
a transaction in one piece, and nobody else changes what is seen. -/
structure ActsAs (answer : σ → (r : Request) → r.Reply × σ) (view : σ → Server) : Prop where
  single : ∀ s c, (answer s (.single c)).1 = ((view s).answer c).1 ∧
    view (answer s (.single c)).2 = ((view s).answer c).2
  transaction : ∀ s cs, (answer s (.transaction cs)).1 = ((view s).answerAll cs).1 ∧
    view (answer s (.transaction cs)).2 = ((view s).answerAll cs).2
  count : ∀ s m, view (answer s (.count m)).2 = view s

theorem actsAs_answerRequest : ActsAs Server.answerRequest id where
  single _ _ := ⟨rfl, rfl⟩
  transaction _ _ := ⟨rfl, rfl⟩
  count _ _ := rfl

theorem ActsAs.seenAs (h : ActsAs answer view) :
    Routine.SeenAs answer view Server.answerRequest := by
  intro s r
  cases r with
  | single c => exact Prod.ext (h.single s c).1 (h.single s c).2
  | transaction cs => exact Prod.ext (h.transaction s cs).1 (h.transaction s cs).2
  | count m => exact Prod.ext rfl (h.count s m)

theorem ActsAs.attempt (h : ActsAs answer view) (s : σ) (a : Attempt α) :
    (Routine.attempt answer s a).map id view = carryOut (view s) a :=
  h.seenAs.run a.run s

theorem ActsAs.exists_attempt (h : ActsAs answer view) {s : σ} {a : Attempt α}
    {result : Except StoreError α} {v : Server} (hv : carryOut (view s) a = (result, v)) :
    ∃ t, Routine.attempt answer s a = (result, t) ∧ view t = v := by
  rw [← h.attempt] at hv
  obtain ⟨hresult, hview⟩ := Prod.mk.inj hv
  exact ⟨_, Prod.ext hresult rfl, hview⟩

end Services

/-! ## Sets of a server -/

namespace Server

variable {v : Server} {key : String} {ms : Table String Score}

theorem members_setMembers (v : Server) (key : String) (ms : Table String Score) (key' : String) :
    (v.setMembers key ms).members key' = if key' = key then .ok ms else v.members key' := by
  unfold setMembers members
  by_cases hempty : ms.pairs.isEmpty = true
  · have hms : ms = ∅ := by
      obtain ⟨ps⟩ := ms
      exact congrArg Table.mk (List.isEmpty_iff.mp hempty)
    rw [if_pos hempty, Table.get?_erase]
    by_cases hkey : key' = key
    · rw [if_pos hkey, if_pos hkey, hms]
    · rw [if_neg hkey, if_neg hkey]
  · rw [if_neg hempty, Table.get?_set]
    by_cases hkey : key' = key
    · rw [if_pos hkey, if_pos hkey]
    · rw [if_neg hkey, if_neg hkey]

theorem get?_setMembers_of_ne {key' : String} (h : key' ≠ key) :
    (v.setMembers key ms).values.get? key' = v.values.get? key' := by
  unfold setMembers
  split
  · rw [Table.get?_erase, if_neg h]
  · rw [Table.get?_set, if_neg h]

theorem members_erase (v : Server) (key key' : String) :
    members ⟨v.values.erase key⟩ key' = if key' = key then .ok ∅ else v.members key' := by
  unfold members
  rw [Table.get?_erase]
  by_cases hkey : key' = key
  · rw [if_pos hkey, if_pos hkey]
  · rw [if_neg hkey, if_neg hkey]

theorem reading_eq (h : v.members key = .ok ms) (f : Table String Score → α) :
    v.reading key f = (.ok (f ms), v) := by
  rw [reading, h]
  rfl

theorem changing_eq (h : v.members key = .ok ms) (f : Table String Score → α × Table String Score) :
    v.changing key f = (.ok (f ms).1, v.setMembers key (f ms).2) := by
  rw [changing, h]

/-! ## Commands on a set -/

section Commands

open SortedSet

variable (h : v.members key = .ok ms)

include h

theorem answer_zadd (items : List (Score × String)) :
    v.answer (.zadd key items) =
      (.ok (), v.setMembers key (ms.setAll (items.map fun i => (i.2, i.1)))) := by
  unfold answer
  exact changing_eq h _

theorem answer_zrem (gone : List String) :
    v.answer (.zrem key gone) =
      (.ok (), v.setMembers key (gone.foldl (fun ms m => ms.erase m) ms)) := by
  unfold answer
  exact changing_eq h _

theorem answer_zremrangeByRank (start stop : Int) :
    v.answer (.zremrangeByRank key start stop) =
      (.ok ((slice start stop (rows ms)).map Prod.fst).length,
        v.setMembers key
          (((slice start stop (rows ms)).map Prod.fst).foldl (fun ms m => ms.erase m) ms)) := by
  unfold answer
  exact changing_eq h _

theorem answer_zrank (member : String) :
    v.answer (.zrank key member) =
      (.ok ((rows ms).findIdx? fun r => decide (r.1 = member)), v) := by
  unfold answer
  exact reading_eq h _

theorem answer_zscore (member : String) :
    v.answer (.zscore key member) = (.ok (ms.get? member), v) := by
  unfold answer
  exact reading_eq h _

theorem answer_zcard : v.answer (.zcard key) = (.ok ms.pairs.length, v) := by
  unfold answer
  exact reading_eq h _

theorem answer_zrange (start stop : Int) :
    v.answer (.zrange key start stop) = (.ok (slice start stop (rows ms)), v) := by
  unfold answer
  exact reading_eq h _

theorem answer_zrevrange (start stop : Int) :
    v.answer (.zrevrange key start stop) =
      (.ok ((slice start stop (rows ms).reverse).map Prod.fst), v) := by
  unfold answer
  exact reading_eq h _

theorem answer_zrangeByScore (up : Bool) (low high : ScoreLimit) (limit : Option Nat) :
    v.answer (.zrangeByScore up key low high limit) = (.ok (inRange up low high limit ms), v) := by
  unfold answer
  exact reading_eq h _

end Commands

theorem answer_rename {source : String} {s : Stored} (h : v.values.get? source = some s)
    (target : String) :
    v.answer (.rename source target) = (.ok (), ⟨(v.values.erase source).set target s⟩) := by
  simp only [answer, h]

end Server
end Redis
end WarmFeed
