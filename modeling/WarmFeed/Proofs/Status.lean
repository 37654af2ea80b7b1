import WarmFeed.Content.Status
import WarmFeed.Proofs.Json.RoundTrip
import WarmFeed.Proofs.Json.Shape
import WarmFeed.Proofs.Timestamp

/-!
# Statuses read back

The text under which a status is stored says all of it, and is read back as that status:
`decode?_encode`.
-/

namespace WarmFeed

open Json

theorem takeWhole_of_le {low high n : Int} (hlow : low ≤ n) (hhigh : n ≤ high) :
    takeWhole low high (.number (.whole n)) = .ok n := if_pos ⟨hlow, hhigh⟩

theorem takeNatural_natural {bound n : Nat} (h : n < bound) :
    takeNatural bound (natural n) = .ok n := by
  rw [takeNatural, natural, takeWhole_of_le (by omega) (by omega)]
  rfl

theorem takeId_natural (id : ContentId) : takeId (natural id.toNat) = .ok id := by
  rw [takeId, takeWord, takeNatural_natural id.toNat_lt]
  exact congrArg Except.ok UInt64.ofNat_toNat

theorem takeCount_natural (n : UInt32) : takeCount (natural n.toNat) = .ok n := by
  rw [takeCount, takeNatural_natural n.toNat_lt]
  exact congrArg Except.ok UInt32.ofNat_toNat

theorem takeString_string (s : String) : takeString (string s) = .ok s := rfl

theorem Timestamp.take_toJson {t : Timestamp} (h : t.IsRegular) : take t.toJson = .ok t := by
  have hchars : t.text.toList = t.chars := String.toList_ofList
  rw [take, toJson, takeString]
  simp only [bind, Except.bind, hchars, parse?_chars h]
  rfl

namespace Author

theorem exact_toJson (a : Author) : Exact a.toJson := by
  refine .record ?_
  simp only [List.forall_mem_cons]
  exact ⟨.string _, exact_optional .string _, fun m hm => absurd hm List.not_mem_nil⟩

theorem take_toJson (a : Author) : shape.take a.toJson = .ok a :=
  Shape.take_record (((Shape.fits_required "username" (takeString_string a.username)).map mk).seq
    (Shape.fits_optional_string "domain" a.domain)) (by simp only [List.map_cons]; decide)

end Author

namespace Status

theorem exact_toJson (s : Status) : Exact s.toJson := by
  refine .record ?_
  have hcount : ∀ n : UInt32, Exact (natural n.toNat) :=
    fun n => exact_natural (Nat.lt_trans n.toNat_lt (by decide))
  simp only [List.forall_mem_cons]
  exact ⟨exact_natural s.id.toNat_lt, .string _, exact_optional .string _, s.author.exact_toJson,
    .string _, .string _, hcount _, hcount _, hcount _, fun m hm => absurd hm List.not_mem_nil⟩

theorem take_toJson {s : Status} (h : s.createdAt.IsRegular) : shape.take s.toJson = .ok s := by
  refine Shape.take_record (a := s) ?_ (by simp only [List.map_cons]; decide)
  exact (((((((((Shape.fits_required "id" (takeId_natural s.id)).map mk).seq
    (Shape.fits_required "uri" (takeString_string s.uri))).seq
    (Shape.fits_optional_string "url" s.url)).seq
    (Shape.fits_required "account" s.author.take_toJson)).seq
    (Shape.fits_required "content" (takeString_string s.content))).seq
    (Shape.fits_required "created_at" (Timestamp.take_toJson h))).seq
    (Shape.fits_withDefault "replies_count" 0 (takeCount_natural s.replies))).seq
    (Shape.fits_withDefault "reblogs_count" 0 (takeCount_natural s.reblogs))).seq
    (Shape.fits_withDefault "favourites_count" 0 (takeCount_natural s.favourites))

theorem decode?_encode {s : Status} (h : s.createdAt.IsRegular) : decode? s.encode = some s := by
  rw [decode?, encode, readAs_text s.exact_toJson, take_toJson h]
  rfl

end Status
end WarmFeed
