import Mathlib.Logic.Function.Basic
import WarmFeed.Index.Request
import WarmFeed.Proofs.Index.Contents

/-!
# Keepers of feeds

A keeper answers requests about feeds, one after the other.  The plainest one is
the ledger, which has a finite map for every key and nothing else: writing sets
scores, removing erases them, and trimming leaves the highest entries.  It is
what other keepers are compared with.

If the answers of two keepers agree at related states and lead to related states
again, they agree throughout every run.
-/

namespace WarmFeed

abbrev Keeper (σ : Type) := σ → StoreKey → (r : IndexRequest) → Except StoreError r.Answer × σ

abbrev Answered := (r : IndexRequest) × Except StoreError r.Answer

namespace Keeper

variable {σ τ : Type}

def run (k : Keeper σ) : List (StoreKey × IndexRequest) → σ → List Answered × σ
  | [], s => ([], s)
  | (key, r) :: calls, s =>
    let first := k s key r
    let others := run k calls first.2
    (⟨r, first.1⟩ :: others.1, others.2)

def Allows (k : Keeper σ) (allowed : σ → StoreKey → IndexRequest → Prop) :
    List (StoreKey × IndexRequest) → σ → Prop
  | [], _ => True
  | (key, r) :: calls, s => allowed s key r ∧ Allows k allowed calls (k s key r).2

/-- Keepers that agree on each allowed request agree on each run of them. -/
theorem run_agrees {k : Keeper σ} {l : Keeper τ} {related : σ → τ → Prop}
    {allowed : τ → StoreKey → IndexRequest → Prop}
    (hstep : ∀ s t key r, related s t → allowed t key r →
      (k s key r).1 = (l t key r).1 ∧ related (k s key r).2 (l t key r).2)
    (calls : List (StoreKey × IndexRequest)) {s : σ} {t : τ} (h : related s t)
    (hallowed : l.Allows allowed calls t) :
    (k.run calls s).1 = (l.run calls t).1 ∧ related (k.run calls s).2 (l.run calls t).2 := by
  induction calls generalizing s t with
  | nil => exact ⟨rfl, h⟩
  | cons call calls ih =>
    obtain ⟨key, r⟩ := call
    obtain ⟨hanswer, hrelated⟩ := hstep s t key r h hallowed.1
    obtain ⟨hanswers, hend⟩ := ih hrelated hallowed.2
    have hfirst : (⟨r, (k s key r).1⟩ : Answered) = ⟨r, (l t key r).1⟩ := by rw [hanswer]
    exact ⟨congrArg₂ List.cons hfirst hanswers, hend⟩

theorem allows_true (k : Keeper σ) (calls : List (StoreKey × IndexRequest)) (s : σ) :
    k.Allows (fun _ _ _ => True) calls s := by
  induction calls generalizing s with
  | nil => trivial
  | cons call calls ih => exact ⟨trivial, ih _⟩

/-- What is allowed of each request after the ones before it is allowed of the run. -/
theorem allows_of_take {k : Keeper σ} {allowed : σ → StoreKey → IndexRequest → Prop}
    {calls : List (StoreKey × IndexRequest)} {s : σ}
    (h : ∀ i (hi : i < calls.length),
      allowed (k.run (calls.take i) s).2 calls[i].1 calls[i].2) : k.Allows allowed calls s := by
  induction calls generalizing s with
  | nil => trivial
  | cons call calls ih =>
    refine ⟨h 0 (Nat.zero_lt_succ _), ih fun i hi => ?_⟩
    exact h (i + 1) (Nat.succ_lt_succ hi)

end Keeper

def Entry.stored (e : Entry) : Entry := ⟨e.id, e.score.fold⟩

/-- The contents of every feed, apart from how they are kept. -/
abbrev Ledger := StoreKey → Contents

namespace Ledger

def empty : Ledger := fun _ => ∅

/-- The first score of a batch that cannot be stored. -/
def refused? (es : List Entry) : Option Score :=
  (es.map Entry.score).find? fun s => !s.isFinite

def store (m : Ledger) (key : StoreKey) (old : Contents) (es : List Entry) :
    Except StoreError Unit × Ledger :=
  match refused? es with
  | some s => (.error (.invalidScore s), m)
  | none => (.ok (), Function.update m key (old.writeAll (es.map Entry.stored)))

def answer : Keeper Ledger := fun m key r =>
  match r with
  | .upsert e => m.store key (m key) [e]
  | .upsertMany es => m.store key (m key) es
  | .remove id => (.ok (), Function.update m key ((m key).erase id))
  | .removeMany ids => (.ok (), Function.update m key ((m key).eraseAll ids))
  | .rank id => (.ok ((m key).rank? id), m)
  | .score id => (.ok ((m key).lookup id), m)
  | .range q => (.ok ((m key).range q), m)
  | .rankWindow offset limit => (.ok ((m key).rankWindow offset limit), m)
  | .entries => (.ok (m key).entryList, m)
  | .replace es => m.store key ∅ es
  | .size => (.ok (m key).size, m)
  | .trim capacity =>
    let kept := (m key).greatest capacity
    (.ok ((m key).size - kept.size), Function.update m key kept)

end Ledger
end WarmFeed
