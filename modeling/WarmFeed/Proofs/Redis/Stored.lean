import WarmFeed.Proofs.Key
import WarmFeed.Proofs.Redis.Session
import WarmFeed.Proofs.Status
import WarmFeed.Redis.Objects

/-!
# Statuses that are stored

A status that is stored is fetched as it was, and what is stored under other identifiers is
fetched as before.
-/

namespace WarmFeed
namespace Redis

namespace Server

def statusText? (v : Server) (id : ContentId) : Option String :=
  match v.values.get? (StoreKey.status id).text with
  | some (.text s) => some s
  | _ => none

/-- The status under an identifier, if there is a text that can be read. -/
def status? (v : Server) (id : ContentId) : Option Status :=
  (v.statusText? id).bind Status.decode?

theorem statusText?_setText (v : Server) (id : ContentId) (s : String) (asked : ContentId) :
    (v.setText (StoreKey.status id).text s).statusText? asked =
      if asked = id then some s else v.statusText? asked := by
  unfold statusText? setText
  rw [Table.get?_set]
  by_cases hid : asked = id
  · rw [if_pos (congrArg (fun id => (StoreKey.status id).text) hid), if_pos hid]
  · rw [if_neg fun h => hid (StoreKey.status_injective h), if_neg hid]

end Server

namespace Objects

theorem carryOut_put (v : Server) (s : Status) :
    carryOut v (put s) = (.ok (), v.setText (StoreKey.status s.id).text s.encode) := rfl

/-- A fetch gives what can be read, in the order of the identifiers. -/
theorem carryOut_bulkFetch (v : Server) (ids : List ContentId) :
    carryOut v (bulkFetch ids) = (.ok (ids.filterMap v.status?), v) := by
  rw [bulkFetch]
  split
  · next hempty =>
    rw [List.isEmpty_iff.mp hempty]
    rfl
  · have htexts : carryOut v (ask (.mget (ids.map fun id => (StoreKey.status id).text))) =
        (.ok (ids.map v.statusText?), v) := by
      change v.answer _ = _
      rw [Server.answer, List.map_map]
      rfl
    rw [carryOut_bind_ok htexts, carryOut_pure, List.filterMap_map]
    rfl

/-- A status that was put is found under its identifier, and everything else is as before. -/
theorem status?_setText_encode {s : Status} (hs : s.createdAt.IsRegular) (v : Server) :
    (v.setText (StoreKey.status s.id).text s.encode).status? =
      fun id => if id = s.id then some s else v.status? id := by
  funext id
  rw [Server.status?, Server.statusText?_setText]
  by_cases hid : id = s.id
  · rw [if_pos hid, if_pos hid, Option.bind_some, Status.decode?_encode hs]
  · rw [if_neg hid, if_neg hid, Server.status?]

/-- A status that is put is stored as its text, from which it is read back, and every fetch that
asks for it gives it, whatever was stored before under its identifier or under others. -/
theorem bulkFetch_put {σ : Type} {answer : σ → (r : Request) → r.Reply × σ} {view : σ → Server}
    (h : ActsAs answer view) {s : Status} (hs : s.createdAt.IsRegular) (t : σ)
    (ids : List ContentId) :
    Status.decode? s.encode = some s ∧
      ∃ u, Routine.attempt answer t (put s) = (.ok (), u) ∧
        (view u).statusText? s.id = some s.encode ∧
        ∃ w, Routine.attempt answer u (bulkFetch ids) =
          (.ok (ids.filterMap fun id => if id = s.id then some s else (view t).status? id), w) ∧
          view w = view u := by
  obtain ⟨u, hput, hstored⟩ := h.exists_attempt (carryOut_put (view t) s)
  have hfetch := carryOut_bulkFetch (view u) ids
  rw [hstored, status?_setText_encode hs, ← hstored] at hfetch
  obtain ⟨w, hfetch, hsame⟩ := h.exists_attempt hfetch
  refine ⟨Status.decode?_encode hs, u, hput, ?_, w, hfetch, hsame⟩
  rw [hstored, Server.statusText?_setText, if_pos rfl]

/-- A status of the first year there is, from a second that was inserted, under the greatest
identifier and with the greatest count. -/
def ofFirstYear : Status where
  id := 0xffffffffffffffff
  uri := "\"\\\n\x01\x7f"
  url := none
  author := ⟨"é😀", some ""⟩
  content := "\t\r\x08\x0c\x1f/"
  createdAt := ⟨⟨Date.firstYear, 1, 1⟩, 86399, 1000000001, by decide⟩
  replies := 0xffffffff
  reblogs := 0
  favourites := 1

def garbled : Server := Server.empty.setText (StoreKey.status ofFirstYear.id).text "["

theorem bulkFetch_put_ofFirstYear :
    ofFirstYear.createdAt.IsRegular ∧ garbled.status? ofFirstYear.id = none ∧
      ∃ u, carryOut garbled (put ofFirstYear) = (.ok (), u) ∧
        carryOut u (bulkFetch [ofFirstYear.id, 7, ofFirstYear.id]) =
          (.ok [ofFirstYear, ofFirstYear], u) := by
  have hregular : ofFirstYear.createdAt.IsRegular := .inr rfl
  obtain ⟨-, u, hput, -, w, hfetch, hsame⟩ := bulkFetch_put actsAs_answerRequest hregular garbled
    [ofFirstYear.id, 7, ofFirstYear.id]
  obtain rfl : w = u := hsame
  refine ⟨hregular, ?_, w, hput, ?_⟩
  · rw [Server.status?, garbled, Server.statusText?_setText, if_pos rfl, Option.bind_some]
    rfl
  · have hne : (7 : ContentId) ≠ ofFirstYear.id := by decide
    have hother : garbled.status? 7 = none := by
      rw [Server.status?, garbled, Server.statusText?_setText, if_neg hne]
      rfl
    refine hfetch.trans ?_
    simp only [id, List.filterMap_cons, List.filterMap_nil, ↓reduceIte, if_neg hne, hother]

end Objects
end Redis
end WarmFeed
