import WarmFeed.Proofs.Index.Refinement
import WarmFeed.Proofs.Key
import WarmFeed.Proofs.Redis.Session
import WarmFeed.Proofs.Redis.Window

/-!
# The sorted sets keep what the ledger says

As long as a server has the right set under the key of every feed, each request
is answered as by the ledger, and the sets are right afterwards.  New contents are
built under a key that no feed has, so they are nowhere to be seen before they
replace the old ones.
-/

namespace WarmFeed

/-- The boundaries of a query are numbers; other requests have none. -/
def IndexRequest.hasFiniteBounds : IndexRequest → Bool
  | .range q => q.lower.isFinite && q.upper.isFinite
  | _ => true

namespace Redis

open SortedSet

def Index.keeper {σ : Type} (answer : σ → (r : Request) → r.Reply × σ) : Keeper σ :=
  fun s key r => Routine.attempt answer s (Index.answer key r)

/-- Under the key of each feed the server has a set that represents its contents. -/
def Holds (v : Server) (m : Ledger) : Prop :=
  ∀ kind subject, ∃ ms, v.members (StoreKey.index kind subject).text = .ok ms ∧
    Represents ms (m (StoreKey.index kind subject))

/-- The sets are right again after the set of one feed was changed along with its
contents. -/
theorem Holds.update {v w : Server} {m : Ledger} (h : Holds v m) {key : StoreKey}
    {ms : Table String Score} {c : Contents}
    (hw : ∀ kind subject, w.members (StoreKey.index kind subject).text =
      if (StoreKey.index kind subject).text = key.text then .ok ms
      else v.members (StoreKey.index kind subject).text)
    (hms : Represents ms c) : Holds w (Function.update m key c) := by
  intro kind subject
  rw [hw, Function.update_apply]
  by_cases hkey : StoreKey.index kind subject = key
  · rw [if_pos (congrArg StoreKey.text hkey), if_pos hkey]
    exact ⟨ms, rfl, hms⟩
  · have htext : (StoreKey.index kind subject).text ≠ key.text := by
      intro htext
      apply hkey
      cases hindex : StoreKey.index kind subject
      cases key
      rw [hindex] at htext
      exact congrArg StoreKey.mk htext
    rw [if_neg htext, if_neg hkey]
    exact h kind subject

theorem Holds.setMembers {v : Server} {m : Ledger} (h : Holds v m) (key : StoreKey)
    {ms : Table String Score} {c : Contents} (hms : Represents ms c) :
    Holds (v.setMembers key.text ms) (Function.update m key c) :=
  h.update (fun _ _ => Server.members_setMembers v key.text ms _) hms

/-! ## Slices -/

section Slices

variable {α : Type}

theorem slice_nonneg (a b : Nat) (l : List α) :
    slice (a : Int) (b : Int) l = (l.take (b + 1)).drop a := by
  have hstop : (((b : Int) + 1).toNat) = b + 1 := by omega
  simp only [slice]
  rw [if_neg (by omega), if_neg (by omega), hstop, Int.toNat_natCast]

theorem slice_all (l : List α) : slice 0 (-1) l = l := by
  have hstop : ((l.length : Int) + -1 + 1).toNat = l.length := by omega
  simp only [slice]
  rw [if_neg (by omega), if_pos (by omega), hstop, List.take_length]
  rfl

/-- The window that a pair of ranks selects in a list that has no greater ranks. -/
theorem slice_rankBounds {offset limit start stop : Nat} {l : List α}
    (hbounds : rankBounds offset limit = some (start, stop)) (hlength : l.length ≤ greatestRank) :
    slice (start : Int) (stop : Int) l = (l.drop offset).take limit := by
  unfold rankBounds at hbounds
  split at hbounds
  · exact absurd hbounds.symm (Option.some_ne_none _)
  · obtain ⟨rfl, rfl⟩ := Prod.mk.inj (Option.some.inj hbounds)
    rw [slice_nonneg, List.drop_take]
    rcases Nat.le_total (offset + (limit - 1)) greatestRank with hle | hle
    · rw [Nat.min_eq_left hle]
      congr 1
      omega
    · rw [Nat.min_eq_right hle, List.take_of_length_le, List.take_of_length_le]
      · rw [List.length_drop]
        omega
      · rw [List.length_drop]
        omega

theorem drop_take_of_rankBounds {offset limit : Nat} {l : List α}
    (hbounds : rankBounds offset limit = none) (hlength : l.length ≤ greatestRank) :
    (l.drop offset).take limit = [] := by
  unfold rankBounds at hbounds
  split at hbounds
  · rename_i hout
    rcases hout with rfl | hout
    · exact List.take_zero
    · rw [List.drop_eq_nil_of_le (by omega), List.take_nil]
  · exact absurd hbounds (Option.some_ne_none _)

end Slices

/-! ## Batches -/

theorem scoredMembers_eq (es : List Entry) :
    scoredMembers es =
      match Ledger.refused? es with
      | some s => .error (.invalidScore s)
      | none => .ok ((es.map Entry.stored).map fun e => (e.score, encodeMember e.id)) := by
  rw [List.map_map]
  exact Score.mapM_validate (fun e score => (score, encodeMember e.id)) es

theorem answerAll_two_ranges {v : Server} {key : String} {ms : Table String Score}
    (h : v.members key = .ok ms) (up : Bool) (low high low' high' : ScoreLimit)
    (limit limit' : Option Nat) :
    v.answerAll [.zrangeByScore up key low high limit, .zrangeByScore up key low' high' limit'] =
      (.ok (inRange up low high limit ms, inRange up low' high' limit' ms, ()), v) := by
  simp only [Server.answerAll, Server.answer_zrangeByScore h]

section Requests

variable {v : Server} {m : Ledger} {key : StoreKey} {ms : Table String Score}

/-- An attempt with the answer of the ledger, after which the sets are right. -/
def Agrees {α : Type} (v : Server) (a : Attempt α) (told : Except StoreError α × Ledger) : Prop :=
  (carryOut v a).1 = told.1 ∧ Holds (carryOut v a).2 told.2

theorem Agrees.congr {α : Type} {a : Attempt α} {told : Except StoreError α × Ledger}
    {r : Except StoreError α} {w : Server} (h : carryOut v a = (r, w)) (hanswer : r = told.1)
    (hholds : Holds w told.2) : Agrees v a told := by
  rw [Agrees, h]
  exact ⟨hanswer, hholds⟩

/-- A checked batch is added to a set, or refused, as in the ledger. -/
theorem agrees_batch (h : Holds v m) (hmembers : v.members key.text = .ok ms)
    (hms : Represents ms (m key)) (operation : String) (es : List Entry) :
    Agrees v (do
      let items ← (scoredMembers es : Except StoreError (List (Score × String)))
      send operation .write (.zadd key.text items)) (m.store key (m key) es) := by
  rw [scoredMembers_eq, Ledger.store]
  cases hrefused : Ledger.refused? es with
  | some s => exact Agrees.congr rfl rfl h
  | none =>
    have hset := hms.writeAll (Ledger.isStored_of_refused? hrefused)
    refine Agrees.congr (w := v.setMembers key.text _) ?_ rfl (h.setMembers key hset)
    have hswap : ((es.map Entry.stored).map fun e => (e.score, encodeMember e.id)).map
          (fun i => (i.2, i.1)) =
        (es.map Entry.stored).map fun e => (encodeMember e.id, e.score) := List.map_map
    rw [carryOut_bind_ok (carryOut_lift v _), carryOut_send, Server.answer_zadd hmembers, hswap]

theorem agrees_upsert (h : Holds v m) (hmembers : v.members key.text = .ok ms)
    (hms : Represents ms (m key)) (e : Entry) :
    Agrees v (Index.upsert key.text e) (m.store key (m key) [e]) := by
  have hbatch := agrees_batch h hmembers hms "upsert" [e]
  have hsame : carryOut v (Index.upsert key.text e) = carryOut v (do
      let items ← (scoredMembers [e] : Except StoreError (List (Score × String)))
      send "upsert" .write (.zadd key.text items)) := by
    unfold Index.upsert scoredMembers
    rw [List.mapM_cons, Score.validate_eq]
    cases e.score.isFinite <;> rfl
  rw [Agrees, hsame]
  exact hbatch

theorem agrees_upsertMany (h : Holds v m) (hmembers : v.members key.text = .ok ms)
    (hms : Represents ms (m key)) (es : List Entry) :
    Agrees v (Index.upsertMany key.text es) (m.store key (m key) es) := by
  cases es with
  | nil =>
    have hunchanged : Function.update m key ((m key).writeAll []) = m :=
      Function.update_eq_self key m
    refine Agrees.congr (carryOut_pure v ()) rfl ?_
    show Holds v (Function.update m key ((m key).writeAll []))
    rw [hunchanged]
    exact h
  | cons e es => exact agrees_batch h hmembers hms "upsert_many" (e :: es)

theorem agrees_remove (h : Holds v m) (hmembers : v.members key.text = .ok ms)
    (hms : Represents ms (m key)) (operation : String) (ids : List ContentId) :
    Agrees v (send operation .write (.zrem key.text (ids.map encodeMember)))
      (.ok (), Function.update m key ((m key).eraseAll ids)) := by
  refine Agrees.congr (w := v.setMembers key.text _) ?_ rfl (h.setMembers key (hms.eraseAll ids))
  rw [carryOut_send, Server.answer_zrem hmembers]

theorem agrees_range (h : Holds v m) (hmembers : v.members key.text = .ok ms)
    (hms : Represents ms (m key)) (hsize : (m key).size ≤ greatestRank) {q : RangeQuery}
    (hlower : q.lower.isFinite = true) (hupper : q.upper.isFinite = true) :
    Agrees v (Index.range key.text q) (.ok ((m key).range q), m) := by
  unfold Index.range
  by_cases hlimit : q.limit = 0
  · rw [if_pos hlimit]
    refine Agrees.congr (carryOut_pure v _) ?_ h
    rw [range_eq_walk, hlimit, List.take_zero, List.map_nil]
  · rw [if_neg hlimit]
    cases hleading : q.leading with
    | unbounded =>
      have hrows : carryOut v (Index.rows key.text q) =
          (.ok (inRange (decide (q.direction = .ascending)) (Index.limitOf q.lower .lowest)
            (Index.limitOf q.upper .highest) (some (min q.limit greatestRank)) ms), v) := by
        unfold Index.rows
        simp only [hleading]
        rw [carryOut_send, Server.answer_zrangeByScore hmembers]
      refine Agrees.congr ?_ (collect_one_read hms hlower hupper hsize hleading) h
      rw [carryOut_bind_ok hrows]
      exact carryOut_lift v _
    | exclusive b =>
      have hrows : carryOut v (Index.rows key.text q) =
          (.ok (inRange (decide (q.direction = .ascending)) (.tied b.score) (.tied b.score)
              none ms ++
            inRange (decide (q.direction = .ascending)) (restOf q b.score).1 (restOf q b.score).2
              (some (min q.limit greatestRank)) ms), v) := by
        unfold Index.rows
        simp only [hleading]
        rw [carryOut_bind_ok ((carryOut_sendAll v _ _ _).trans
          (answerAll_two_ranges hmembers _ _ _ _ _ _ _))]
        rfl
      refine Agrees.congr ?_ (collect_two_reads hms hlower hupper hsize hleading) h
      rw [carryOut_bind_ok hrows]
      exact carryOut_lift v _

theorem agrees_rankWindow (h : Holds v m) (hmembers : v.members key.text = .ok ms)
    (hms : Represents ms (m key)) (hsize : (m key).size ≤ greatestRank) (offset limit : Nat) :
    Agrees v (Index.rankWindow key.text offset limit)
      (.ok ((m key).rankWindow offset limit), m) := by
  have hlength : (m key).ascending.reverse.length ≤ greatestRank := by
    rw [List.length_reverse, Contents.length_ascending]
    exact hsize
  unfold Index.rankWindow Contents.rankWindow
  cases hbounds : rankBounds offset limit with
  | none =>
    refine Agrees.congr (carryOut_pure v _) ?_ h
    rw [drop_take_of_rankBounds hbounds hlength, List.map_nil]
  | some ranks =>
    obtain ⟨start, stop⟩ := ranks
    have hslice : (slice (start : Int) (stop : Int) (rows ms).reverse).map Prod.fst =
        (((m key).ascending.reverse.drop offset).take limit).map fun p => encodeMember p.id := by
      have hlength' : ((m key).ascending.reverse.map rowOf).length ≤ greatestRank := by
        rw [List.length_map]
        exact hlength
      rw [hms.rows_eq, ← List.map_reverse, slice_rankBounds hbounds hlength', ← List.map_drop,
        ← List.map_take, List.map_map]
      rfl
    have hread := (carryOut_send v "rank_window" .read (.zrevrange key.text start stop)).trans
      (Server.answer_zrevrange hmembers start stop)
    have hdecode := mapM_decode decodeMember (fun p : Position => encodeMember p.id) Position.id
      (fun p => decodeMember_encodeMember p.id)
      (((m key).ascending.reverse.drop offset).take limit)
    rw [hslice] at hread
    refine Agrees.congr ?_ hdecode h
    dsimp only
    rw [carryOut_bind_ok hread]
    exact carryOut_lift v _

theorem agrees_entries (h : Holds v m) (hmembers : v.members key.text = .ok ms)
    (hms : Represents ms (m key)) :
    Agrees v (Index.entries key.text) (.ok (m key).entryList, m) := by
  have hread := (carryOut_send v "entries" .read (.zrange key.text 0 (-1))).trans
    (Server.answer_zrange hmembers 0 (-1))
  rw [slice_all, hms.rows_eq] at hread
  have hrow : ∀ p : Position, (do return ⟨← decodeMember (rowOf p).1, (rowOf p).2⟩ :
      Except StoreError Entry) = .ok p.entry := by
    intro p
    rw [rowOf, decodeMember_encodeMember]
    rfl
  have hdecode := mapM_decode (fun row : Row => (do return ⟨← decodeMember row.1, row.2⟩ :
    Except StoreError Entry)) rowOf Position.entry hrow (m key).ascending
  refine Agrees.congr ?_ hdecode h
  unfold Index.entries
  rw [carryOut_bind_ok hread]
  exact carryOut_lift v _

theorem carryOut_size (hmembers : v.members key.text = .ok ms) (hms : Represents ms (m key)) :
    carryOut v (Index.size key.text) = (.ok (m key).size, v) := by
  unfold Index.size
  rw [carryOut_send, Server.answer_zcard hmembers, hms.length_pairs]

/-- The lowest entries are removed by their ranks, as many as there are. -/
theorem answer_zremrangeByRank_lowest {name : String} {c : Contents}
    (hmembers : v.members name = .ok ms) (hms : Represents ms c) {excess : Nat} (h : 0 < excess) :
    ∃ kept, v.answer (.zremrangeByRank name 0 ((excess : Int) - 1)) =
        (.ok (min excess c.size), v.setMembers name kept) ∧
      Represents kept (c.greatest (c.size - excess)) := by
  have hstop : (excess : Int) - 1 = (excess - 1 : Nat) := by omega
  have hlowest : c.ascending.take excess = c.ascending.take (c.size - (c.size - excess)) := by
    rw [List.take_eq_take_iff, Contents.length_ascending]
    omega
  have hgone : (slice 0 ((excess : Int) - 1) (rows ms)).map Prod.fst =
      ((c.ascending.take excess).map Position.id).map encodeMember := by
    rw [hms.rows_eq, hstop]
    refine (congrArg (List.map Prod.fst) (slice_nonneg 0 _ _)).trans ?_
    rw [Nat.sub_add_cancel h, List.drop_zero, ← List.map_take, List.map_map, List.map_map]
    rfl
  have hkept := hms.eraseAll ((c.ascending.take (c.size - (c.size - excess))).map Position.id)
  rw [Contents.eraseAll_lowest, ← hlowest] at hkept
  refine ⟨_, ?_, hkept⟩
  rw [Server.answer_zremrangeByRank hmembers, hgone, List.length_map, List.length_map,
    List.length_take, Contents.length_ascending]

theorem agrees_trim (h : Holds v m) (hmembers : v.members key.text = .ok ms)
    (hms : Represents ms (m key)) (capacity : Nat) :
    Agrees v (Index.trim key.text capacity)
      (.ok ((m key).size - ((m key).greatest capacity).size),
        Function.update m key ((m key).greatest capacity)) := by
  have hsize := carryOut_size hmembers hms
  unfold Index.trim
  rw [Agrees, carryOut_bind_ok hsize]
  by_cases hfits : (m key).size ≤ capacity
  · rw [if_pos hfits, Contents.greatest_of_size_le hfits, Nat.sub_self, Function.update_eq_self]
    exact ⟨rfl, h⟩
  · obtain ⟨kept, hanswer, hkept⟩ := answer_zremrangeByRank_lowest hmembers hms
      (Nat.sub_pos_of_lt (Nat.lt_of_not_le hfits))
    rw [Nat.sub_sub_self (Nat.le_of_not_le hfits)] at hkept
    have hcount : min ((m key).size - capacity) (m key).size =
        (m key).size - min (m key).size capacity := by omega
    rw [if_neg hfits, carryOut_send, hanswer, Contents.size_greatest]
    exact ⟨congrArg Except.ok hcount, h.setMembers key hkept⟩

/-! ## New contents -/

/-- A set that is built under another key and moved over the old one. -/
theorem answerAll_move (v : Server) (staging target : String)
    {items : List (Score × String)} (hitems : items ≠ []) :
    ∃ w, v.answerAll [.delete staging, .zadd staging items, .rename staging target] =
        (.ok ((), (), (), ()), w) ∧
      ∀ key, key ≠ staging → w.members key =
        if key = target then .ok (Table.setAll ∅ (items.map fun i => (i.2, i.1)))
        else v.members key := by
  let built : Table String Score := Table.setAll ∅ (items.map fun i => (i.2, i.1))
  let cleared : Server := ⟨v.values.erase staging⟩
  let filled : Server := ⟨cleared.values.set staging (.sorted built)⟩
  refine ⟨⟨(filled.values.erase staging).set target (.sorted built)⟩, ?_, fun key hkey => ?_⟩
  · have hcleared : cleared.members staging = .ok ∅ := by
      rw [Server.members_erase, if_pos rfl]
    have hne : built.pairs.isEmpty = false := by
      have hne : built.pairs ≠ [] :=
        Table.pairs_setAll_ne_nil (Or.inr fun hnil => hitems (List.map_eq_nil_iff.mp hnil))
      rwa [← Bool.not_eq_true, List.isEmpty_iff]
    have hfilled : cleared.answer (.zadd staging items) = (.ok (), filled) := by
      rw [Server.answer_zadd hcleared, Server.setMembers, if_neg]
      exact Bool.eq_false_iff.mp hne
    have hget : filled.values.get? staging = some (.sorted built) := by
      rw [Table.get?_set, if_pos rfl]
    have hrename : filled.answer (.rename staging target) =
        (.ok (), ⟨(filled.values.erase staging).set target (.sorted built)⟩) :=
      Server.answer_rename hget target
    have hdelete : v.answer (.delete staging) = (.ok (), cleared) := rfl
    simp only [Server.answerAll, hdelete, hfilled, hrename]
  · unfold Server.members
    rw [Table.get?_set]
    by_cases htarget : key = target
    · rw [if_pos htarget, if_pos htarget]
    · rw [if_neg htarget, if_neg htarget, Table.get?_erase, if_neg hkey, Table.get?_set,
        if_neg hkey, Table.get?_erase, if_neg hkey]

theorem agrees_replace (h : Holds v m) (es : List Entry) :
    Agrees v (Index.replace key es) (m.store key ∅ es) := by
  unfold Index.replace
  rw [scoredMembers_eq, Ledger.store]
  cases hrefused : Ledger.refused? es with
  | some s => exact Agrees.congr rfl rfl h
  | none =>
    have hset := Represents.empty.writeAll (Ledger.isStored_of_refused? hrefused)
    rw [Agrees, carryOut_bind_ok (carryOut_lift v _)]
    cases es with
    | nil =>
      refine ⟨rfl, h.update (fun kind subject => ?_) hset⟩
      exact Server.members_erase v key.text _
    | cons e es =>
      have hswap : (((e :: es).map Entry.stored).map fun e => (e.score, encodeMember e.id)).map
            (fun i => (i.2, i.1)) =
          ((e :: es).map Entry.stored).map fun e => (encodeMember e.id, e.score) := List.map_map
      have hitems : ((e :: es).map Entry.stored).map (fun e => (e.score, encodeMember e.id)) ≠ [] :=
        List.cons_ne_nil _ _
      obtain ⟨w, hmove, hmembers⟩ := answerAll_move v key.staging.text key.text hitems
      rw [hswap] at hmembers
      rw [if_neg (by simp), carryOut_bind_ok ((carryOut_sendAll v _ _ _).trans hmove)]
      refine ⟨rfl, h.update (fun kind subject => ?_) hset⟩
      exact hmembers _ (StoreKey.index_ne_staging kind subject key)

end Requests

/-! ## Requests and runs -/

/-- What a request must be like to be answered alike: it is about a feed with no more
entries than can be counted, and the boundaries of a query are numbers. -/
def Admits (m : Ledger) (key : StoreKey) (r : IndexRequest) : Prop :=
  (∃ kind subject, key = StoreKey.index kind subject) ∧ r.hasFiniteBounds = true ∧
    (m key).size ≤ greatestRank

/-- One request: the answer is that of the ledger, and the sets are right after it. -/
theorem agrees_answer {v : Server} {m : Ledger} {key : StoreKey} {r : IndexRequest}
    (h : Holds v m) (hadmits : Admits m key r) :
    Agrees v (Index.answer key r) (Ledger.answer m key r) := by
  obtain ⟨⟨kind, subject, rfl⟩, hbounds, hsize⟩ := hadmits
  obtain ⟨ms, hmembers, hms⟩ := h kind subject
  cases r with
  | upsert e => exact agrees_upsert h hmembers hms e
  | upsertMany es => exact agrees_upsertMany h hmembers hms es
  | remove id => exact agrees_remove h hmembers hms "remove" [id]
  | removeMany ids =>
    cases ids with
    | nil =>
      have hunchanged : Function.update m (StoreKey.index kind subject)
          ((m (StoreKey.index kind subject)).eraseAll []) = m := Function.update_eq_self _ m
      refine Agrees.congr (carryOut_pure v ()) rfl ?_
      show Holds v (Function.update m _ (Contents.eraseAll _ []))
      rw [hunchanged]
      exact h
    | cons id ids => exact agrees_remove h hmembers hms "remove_many" (id :: ids)
  | rank id =>
    refine Agrees.congr ((carryOut_send v _ _ _).trans (Server.answer_zrank hmembers _)) ?_ h
    exact congrArg Except.ok (hms.findIdx?_rows id)
  | score id =>
    refine Agrees.congr ((carryOut_send v _ _ _).trans (Server.answer_zscore hmembers _)) ?_ h
    exact congrArg Except.ok (hms.get?_eq id)
  | range q =>
    obtain ⟨hlower, hupper⟩ := (Bool.and_eq_true _ _).mp hbounds
    exact agrees_range h hmembers hms hsize hlower hupper
  | rankWindow offset limit => exact agrees_rankWindow h hmembers hms hsize offset limit
  | entries => exact agrees_entries h hmembers hms
  | replace es => exact agrees_replace h es
  | size => exact Agrees.congr (carryOut_size hmembers hms) rfl h
  | trim capacity => exact agrees_trim h hmembers hms capacity

section Service

variable {σ : Type} {answer : σ → (r : Request) → r.Reply × σ} {view : σ → Server}

theorem keeper_agrees (h : ActsAs answer view) {s : σ} {m : Ledger} {key : StoreKey}
    {r : IndexRequest} (hholds : Holds (view s) m) (hadmits : Admits m key r) :
    (Index.keeper answer s key r).1 = (Ledger.answer m key r).1 ∧
      Holds (view (Index.keeper answer s key r).2) (Ledger.answer m key r).2 := by
  have hagrees := agrees_answer hholds hadmits
  rwa [Agrees, ← h.attempt] at hagrees

/-- A service without feeds and an index without feeds answer every run of requests alike,
as long as no feed has more entries than can be counted. -/
theorem run_eq_index_run (h : ActsAs answer view) (s : σ) (calls : List (StoreKey × IndexRequest))
    (hs : ∀ kind subject, (view s).members (StoreKey.index kind subject).text = .ok ∅)
    (hkeys : ∀ call ∈ calls, ∃ kind subject, call.1 = StoreKey.index kind subject)
    (hbounds : ∀ call ∈ calls, call.2.hasFiniteBounds = true)
    (hsize : ∀ i (hi : i < calls.length),
      ((Keeper.run FeedIndex.answer (calls.take i) ∅).2.feed calls[i].1).size < 2 ^ 63) :
    (Keeper.run (Index.keeper answer) calls s).1 = (Keeper.run FeedIndex.answer calls ∅).1 := by
  have hallowed : Keeper.Allows Ledger.answer Admits calls Ledger.empty := by
    refine Keeper.allows_of_take fun i hi => ?_
    have hmem : calls[i] ∈ calls := List.getElem_mem hi
    obtain ⟨-, hconsistent, hledger⟩ := FeedIndex.run_kept (calls.take i) FeedIndex.kept_empty
    refine ⟨hkeys _ hmem, hbounds _ hmem, ?_⟩
    have hcount := hsize i hi
    rw [(hconsistent _).size_eq] at hcount
    rw [← hledger]
    exact Nat.le_pred_of_lt hcount
  have hholds : Holds (view s) Ledger.empty :=
    fun kind subject => ⟨∅, hs kind subject, Represents.empty⟩
  have hstep : ∀ s m key r, Holds (view s) m → Admits m key r →
      (Index.keeper answer s key r).1 = (Ledger.answer m key r).1 ∧
        Holds (view (Index.keeper answer s key r).2) (Ledger.answer m key r).2 :=
    fun _ _ _ _ hholds hadmits => keeper_agrees h hholds hadmits
  have hredis := Keeper.run_agrees hstep calls hholds hallowed
  have hindex := FeedIndex.run_kept calls FeedIndex.kept_empty
  exact hredis.1.trans hindex.1.symm

end Service

/-- Requests about one feed: a batch with ties, a refused write, pages that start at a tie
from either side, a trim and new contents. -/
def tiedRequests : List IndexRequest :=
  [.upsertMany [⟨1, Score.negativeZero⟩, ⟨3, Score.zero⟩, ⟨2, Score.zero⟩, ⟨4, ⟨5⟩⟩],
    .upsert ⟨2, Score.notANumber⟩,
    .range (.down (.exclusive ⟨Score.zero, 3⟩) .unbounded 2),
    .range (.up (.exclusive ⟨Score.negativeZero, 2⟩) (.exclusive ⟨⟨5⟩, 4⟩) 9),
    .rankWindow 1 2, .trim 2, .replace [⟨6, Score.zero⟩], .entries]

def tiedCalls : List (StoreKey × IndexRequest) :=
  tiedRequests.map fun r => (StoreKey.index .home (.account 7), r)

theorem run_eq_index_run_tied :
    (Keeper.run (Index.keeper Server.answerRequest) tiedCalls ∅).1 =
      (Keeper.run FeedIndex.answer tiedCalls ∅).1 := by
  refine run_eq_index_run actsAs_answerRequest ∅ tiedCalls (fun _ _ => rfl)
    (fun call hcall => ?_) (by decide) (by decide +kernel)
  obtain ⟨r, -, rfl⟩ := List.mem_map.mp hcall
  exact ⟨.home, .account 7, rfl⟩

end Redis
end WarmFeed
