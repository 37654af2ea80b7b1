import Mathlib.Data.List.Basic
import WarmFeed.Key
import WarmFeed.Proofs.Digits

/-!
# Keys that do not meet

A key is taken apart at its colons.  Its first parts are the version, which all keys share, and
a word for what is kept.  The parts after these are words and numbers, and a number is never a
word.  Only a reference can be any text; it stands at the end, and what stands before it no other
key has.

So the store has one keyspace for all that it holds.  The contents of a feed, those that are
being built, a mark, a status, a reference, the counter of identifiers and the active accounts
have equal keys only if they are the same thing, kept for the same feed, subject, identifier or
reference.
-/

namespace WarmFeed
namespace Text

def parts (s : String) : List String := (s.toList.splitOn ':').map String.ofList

theorem parts_append (s t : String) : parts (s ++ ":" ++ t) = parts s ++ parts t := by
  have hchars : (s ++ ":" ++ t).toList = s.toList ++ ':' :: t.toList := by simp
  rw [parts, hchars, List.splitOn_append_cons_self, List.map_append]
  rfl

theorem parts_of_notMem {s : String} (h : ':' ∉ s.toList) : parts s = [s] := by
  rw [parts, List.splitOn_eq_singleton h, List.map_singleton, String.ofList_toList]

theorem parts_intercalate (s : String) (ss : List String) :
    parts (":".intercalate (s :: ss)) = (s :: ss).flatMap parts := by
  induction ss generalizing s with
  | nil => rw [String.intercalate_singleton, List.flatMap_singleton]
  | cons t ss ih =>
    rw [String.intercalate_cons_cons, parts_append, ih]
    rfl

/-- A text is put together again from its parts. -/
theorem parts_injective : Function.Injective parts := by
  intro s t h
  have hsplit : s.toList.splitOn ':' = t.toList.splitOn ':' :=
    List.map_injective_iff.mpr (fun _ _ => String.ofList_injective) h
  apply String.toList_inj.mp
  calc s.toList = [':'].intercalate (s.toList.splitOn ':') := (List.intercalate_splitOn ':').symm
    _ = [':'].intercalate (t.toList.splitOn ':') := by rw [hsplit]
    _ = t.toList := List.intercalate_splitOn ':'

theorem parts_toString (n : Nat) : parts (toString n) = [toString n] :=
  parts_of_notMem fun h => by
    rw [toList_toString] at h
    exact absurd (isDigit_of_mem_toDigits h) (by decide)

end Text

open Text

/-! ## The parts of names -/

theorem FeedKind.parts_name (kind : FeedKind) : parts kind.name = [kind.name] := by
  cases kind <;> rfl

theorem FeedKind.name_injective {kind kind' : FeedKind} (h : kind.name = kind'.name) :
    kind = kind' := by
  cases kind <;> cases kind' <;> simp [name] at h ⊢

namespace Subject

theorem parts_trending : parts (name .trending) = ["trending"] := rfl

theorem parts_account (id : AccountId) :
    parts (account id).name = ["account", toString id.toNat] := by
  have hname : (account id).name = "account" ++ ":" ++ toString id.toNat := rfl
  rw [hname, parts_append, parts_toString]
  rfl

/-- A name ends with a number or with a word of its own. -/
theorem exists_parts_name (subject : Subject) :
    ∃ front last, parts subject.name = front ++ [last] ∧ last ≠ "staging" := by
  cases subject with
  | trending => exact ⟨[], "trending", rfl, by decide⟩
  | account id =>
    exact ⟨["account"], toString id.toNat, parts_account id, toString_ne (by decide) id.toNat⟩

end Subject

namespace StoreKey

theorem toString_toNat_inj {a b : UInt64} (h : toString a.toNat = toString b.toNat) : a = b := by
  have hread := congrArg (fun s => Nat.ofDigitChars 10 s.toList 0) h
  simp only [toList_toString, Nat.ofDigitChars_ten_toDigits] at hread
  exact UInt64.toNat_inj.mp hread

theorem name_injective {subject subject' : Subject} (h : subject.name = subject'.name) :
    subject = subject' := by
  have hparts := congrArg parts h
  cases subject with
  | trending =>
    cases subject' with
    | trending => rfl
    | account id =>
      rw [Subject.parts_trending, Subject.parts_account] at hparts
      simp at hparts
  | account id =>
    cases subject' with
    | trending =>
      rw [Subject.parts_trending, Subject.parts_account] at hparts
      simp at hparts
    | account id' =>
      rw [Subject.parts_account, Subject.parts_account, List.cons_inj_right,
        List.singleton_inj] at hparts
      exact congrArg Subject.account (toString_toNat_inj hparts)

/-! ## The parts of keys -/

theorem parts_build (ss : List String) : parts (build ss).text = "v1" :: ss.flatMap parts := by
  rw [build, parts_intercalate]
  rfl

theorem parts_index (kind : FeedKind) (subject : Subject) :
    parts (index kind subject).text = "v1" :: "feed" :: kind.name :: parts subject.name := by
  rw [index, parts_build]
  show "v1" :: (["feed"] ++ (parts kind.name ++ (parts subject.name ++ []))) = _
  rw [kind.parts_name, List.append_nil]
  rfl

theorem parts_staging (key : StoreKey) :
    parts key.staging.text = parts key.text ++ ["staging"] := by
  have htext : key.staging.text = key.text ++ ":" ++ "staging" := by
    rw [String.append_assoc]
    rfl
  rw [htext, parts_append]
  rfl

theorem parts_regeneration (subject : Subject) :
    parts (regeneration subject).text = "v1" :: "regen" :: parts subject.name := by
  rw [regeneration, parts_build]
  show "v1" :: (["regen"] ++ (parts subject.name ++ [])) = _
  rw [List.append_nil]
  rfl

theorem parts_status (id : ContentId) :
    parts (status id).text = ["v1", "status", toString id.toNat] := by
  rw [status, parts_build]
  show "v1" :: (["status"] ++ (parts (toString id.toNat) ++ [])) = _
  rw [parts_toString]
  rfl

theorem parts_statusReference (reference : String) :
    parts (statusReference reference).text = "v1" :: "status" :: "uri" :: parts reference := by
  rw [statusReference, parts_build]
  show "v1" :: (["status"] ++ (["uri"] ++ (parts reference ++ []))) = _
  rw [List.append_nil]
  rfl

theorem parts_statusSequence : parts statusSequence.text = ["v1", "status", "sequence"] := by
  rw [statusSequence, parts_build]
  rfl

theorem parts_activeAccounts : parts activeAccounts.text = ["v1", "accounts", "active"] := by
  rw [activeAccounts, parts_build]
  rfl

/-! ## Keys of feeds -/

theorem index_injective {kind kind' : FeedKind} {subject subject' : Subject}
    (h : index kind subject = index kind' subject') : kind = kind' ∧ subject = subject' := by
  have hparts := congrArg (fun key => parts key.text) h
  simp only [parts_index, List.cons.injEq, true_and] at hparts
  obtain ⟨hkind, hsubject⟩ := hparts
  exact ⟨FeedKind.name_injective hkind, name_injective (parts_injective hsubject)⟩

theorem staging_injective {key key' : StoreKey} (h : key.staging.text = key'.staging.text) :
    key = key' := by
  cases key
  cases key'
  exact congrArg StoreKey.mk (String.append_left_inj _ |>.mp h)

theorem index_ne_staging (kind : FeedKind) (subject : Subject) (key : StoreKey) :
    (index kind subject).text ≠ key.staging.text := by
  intro h
  have hparts := congrArg parts h
  obtain ⟨front, last, hname, hlast⟩ := subject.exists_parts_name
  rw [parts_index, parts_staging, hname] at hparts
  simp only [← List.cons_append] at hparts
  exact hlast (List.singleton_inj.mp (List.append_inj' hparts rfl).2)

theorem regeneration_injective {subject subject' : Subject}
    (h : (regeneration subject).text = (regeneration subject').text) : subject = subject' := by
  have hparts := congrArg parts h
  simp only [parts_regeneration, List.cons.injEq, true_and] at hparts
  exact name_injective (parts_injective hparts)

/-! ## Keys of statuses -/

theorem status_injective {a b : ContentId} (h : (status a).text = (status b).text) : a = b := by
  have hparts := congrArg parts h
  simp only [parts_status, List.cons.injEq, true_and, and_true] at hparts
  exact toString_toNat_inj hparts

theorem statusReference_injective {r r' : String}
    (h : (statusReference r).text = (statusReference r').text) : r = r' := by
  have hparts := congrArg parts h
  simp only [parts_statusReference, List.cons.injEq, true_and] at hparts
  exact parts_injective hparts

theorem status_ne_statusReference (id : ContentId) (reference : String) :
    (status id).text ≠ (statusReference reference).text := by
  intro h
  have hparts := congrArg parts h
  simp only [parts_status, parts_statusReference, List.cons.injEq, true_and] at hparts
  exact toString_ne (by decide) id.toNat hparts.1

theorem status_ne_statusSequence (id : ContentId) : (status id).text ≠ statusSequence.text := by
  intro h
  have hparts := congrArg parts h
  simp only [parts_status, parts_statusSequence, List.cons.injEq, true_and, and_true] at hparts
  exact toString_ne (by decide) id.toNat hparts

theorem statusSequence_ne_statusReference (reference : String) :
    statusSequence.text ≠ (statusReference reference).text := by
  intro h
  have hparts := congrArg parts h
  simp [parts_statusSequence, parts_statusReference] at hparts

end StoreKey

/-! ## The keyspace -/

/-- What the store holds under a key of its own, with all that its key is built from. -/
inductive Holding where
  /-- The contents of a feed. -/
  | index (kind : FeedKind) (subject : Subject)
  /-- The contents that are to replace those of a feed. -/
  | staging (kind : FeedKind) (subject : Subject)
  /-- The mark of a subject. -/
  | regeneration (subject : Subject)
  | status (id : ContentId)
  /-- The identifier that a reference stands for. -/
  | statusReference (reference : String)
  | statusSequence
  | activeAccounts
deriving DecidableEq

namespace Holding

open StoreKey

def key : Holding → StoreKey
  | index kind subject => StoreKey.index kind subject
  | staging kind subject => (StoreKey.index kind subject).staging
  | regeneration subject => StoreKey.regeneration subject
  | status id => StoreKey.status id
  | statusReference reference => StoreKey.statusReference reference
  | statusSequence => StoreKey.statusSequence
  | activeAccounts => StoreKey.activeAccounts

/-- The word of a key that says what is kept. -/
def area : Holding → String
  | index .. | staging .. => "feed"
  | regeneration _ => "regen"
  | status _ | statusReference _ | statusSequence => "status"
  | activeAccounts => "accounts"

theorem getElem?_parts_key (a : Holding) : (parts a.key.text)[1]? = some a.area := by
  cases a with
  | index kind subject => rw [key, parts_index]; rfl
  | staging kind subject => rw [key, parts_staging, parts_index]; rfl
  | regeneration subject => rw [key, parts_regeneration]; rfl
  | status id => rw [key, parts_status]; rfl
  | statusReference reference => rw [key, parts_statusReference]; rfl
  | statusSequence => rw [key, parts_statusSequence]; rfl
  | activeAccounts => rw [key, parts_activeAccounts]; rfl

theorem area_eq_of_key {a b : Holding} (h : a.key.text = b.key.text) : a.area = b.area := by
  have hword := a.getElem?_parts_key
  rw [h, b.getElem?_parts_key] at hword
  exact (Option.some.inj hword).symm

/-- Whatever is kept, and whatever it is kept for, has a key of its own. -/
theorem key_text_inj (a b : Holding) : a.key.text = b.key.text ↔ a = b := by
  refine ⟨fun h => ?_, fun h => h ▸ rfl⟩
  have harea := area_eq_of_key h
  cases a with
  | index kind subject =>
    cases b with
    | index kind' subject' =>
      obtain ⟨rfl, rfl⟩ := index_injective (congrArg StoreKey.mk h)
      rfl
    | staging kind' subject' => exact absurd h (index_ne_staging kind subject _)
    | _ => exact absurd harea (by simp [area])
  | staging kind subject =>
    cases b with
    | index kind' subject' => exact absurd h.symm (index_ne_staging kind' subject' _)
    | staging kind' subject' =>
      obtain ⟨rfl, rfl⟩ := index_injective (staging_injective h)
      rfl
    | _ => exact absurd harea (by simp [area])
  | regeneration subject =>
    cases b with
    | regeneration subject' => rw [regeneration_injective h]
    | _ => exact absurd harea (by simp [area])
  | status id =>
    cases b with
    | status id' => rw [status_injective h]
    | statusReference reference => exact absurd h (status_ne_statusReference id reference)
    | statusSequence => exact absurd h (status_ne_statusSequence id)
    | _ => exact absurd harea (by simp [area])
  | statusReference reference =>
    cases b with
    | status id => exact absurd h.symm (status_ne_statusReference id reference)
    | statusReference reference' => rw [statusReference_injective h]
    | statusSequence => exact absurd h.symm (statusSequence_ne_statusReference reference)
    | _ => exact absurd harea (by simp [area])
  | statusSequence =>
    cases b with
    | status id => exact absurd h.symm (status_ne_statusSequence id)
    | statusReference reference => exact absurd h (statusSequence_ne_statusReference reference)
    | statusSequence => rfl
    | _ => exact absurd harea (by simp [area])
  | activeAccounts =>
    cases b with
    | activeAccounts => rfl
    | _ => exact absurd harea (by simp [area])

end Holding
end WarmFeed
