import Mathlib.Data.Char
import Mathlib.Data.List.Lex
import WarmFeed.Proofs.Redis.Rows

/-!
# Members by their bytes

A set orders members of one score by their bytes.  A text is encoded character by character, each
as one to four bytes, and what is encoded stands in the order of the characters: longer codes
begin with greater bytes, and of two codes of one length each byte holds bits that count for more
than those after it.  So the order of bytes is that of the texts, and for members, which all have
twenty digits, that of the identifiers.
-/

namespace WarmFeed
namespace Redis

def bytes (s : String) : List UInt8 := s.toByteArray.data.toList

theorem bytes_eq (s : String) : bytes s = s.toList.flatMap String.utf8EncodeChar := by
  rw [bytes, ← String.ofList_toList (s := s), String.toByteArray_ofList, String.toList_ofList,
    List.utf8Encode, List.data_toByteArray]

/-! ## Characters -/

section Sextets

variable {m n : Nat}

theorem ofNat_lt_ofNat_iff (hm : m < 256) (hn : n < 256) :
    UInt8.ofNat m < UInt8.ofNat n ↔ m < n := UInt8.ofNat_lt_iff_lt hm hn

theorem ofNat_eq_ofNat_iff (hm : m < 256) (hn : n < 256) :
    UInt8.ofNat m = UInt8.ofNat n ↔ m = n := by
  rw [← UInt8.toNat_inj, UInt8.toNat_ofNat_of_lt' hm, UInt8.toNat_ofNat_of_lt' hn]

/-- The last six bits decide only where all before them agree. -/
theorem sextet_lt (h : m < n) : m / 64 < n / 64 ∨ m / 64 = n / 64 ∧ m % 64 < n % 64 := by
  omega

/-- Of four bytes the first holds three bits and the others six each. -/
theorem sextets_lt (h : m < n) (hn : n < 0x200000) :
    m / 262144 % 8 < n / 262144 % 8 ∨ m / 262144 % 8 = n / 262144 % 8 ∧
      (m / 4096 % 64 < n / 4096 % 64 ∨ m / 4096 % 64 = n / 4096 % 64 ∧
        (m / 64 % 64 < n / 64 % 64 ∨ m / 64 % 64 = n / 64 % 64 ∧ m % 64 < n % 64)) := by
  have htop : ∀ k < 0x200000, k / 262144 % 8 = k / 64 / 64 / 64 := fun k hk => by omega
  have hnext : ∀ k, k / 4096 = k / 64 / 64 := fun k => by omega
  rw [htop m (by omega), htop n hn, hnext, hnext]
  rcases sextet_lt h with h | ⟨h, hlast⟩
  · rcases sextet_lt h with h | ⟨h, hlast⟩
    · rcases sextet_lt h with h | h
      · exact .inl h
      · exact .inr ⟨h.1, .inl h.2⟩
    · rw [h]
      exact .inr ⟨rfl, .inr ⟨rfl, .inl hlast⟩⟩
  · rw [h]
    exact .inr ⟨rfl, .inr ⟨rfl, .inr ⟨rfl, hlast⟩⟩⟩

end Sextets

theorem toNat_val_lt (c : Char) : c.val.toNat < 0x110000 := by
  rcases c.valid with h | ⟨-, h⟩
  · exact Nat.lt_trans h (by decide)
  · exact h

/-- The codes of two characters differ, and where they first do the lower one belongs to the lower
character. -/
theorem encode_append_lt {c d : Char} (h : c < d) (x y : List UInt8) :
    String.utf8EncodeChar c ++ x < String.utf8EncodeChar d ++ y := by
  have hlt : c.val.toNat < d.val.toNat := h
  have hd := toNat_val_lt d
  simp only [String.utf8EncodeChar]
  generalize c.val.toNat = m at *
  generalize d.val.toNat = n at *
  clear h c d
  by_cases hfew : m ≤ 0xffff
  · -- A longer code begins with a greater byte.
    split_ifs <;>
      simp (disch := omega) only [List.cons_append, List.nil_append, List.cons_lt_cons_iff,
        ofNat_lt_ofNat_iff, ofNat_eq_ofNat_iff] <;>
      omega
  · -- Both codes have four bytes.
    simp (disch := omega) only [if_neg, List.cons_append, List.nil_append, List.cons_lt_cons_iff,
      ofNat_lt_ofNat_iff, ofNat_eq_ofNat_iff, Nat.add_lt_add_iff_right, Nat.add_right_cancel_iff]
    have hlex := sextets_lt hlt (Nat.lt_trans hd (by decide))
    tauto

/-! ## Texts -/

theorem flatMap_encode_lt {l m : List Char} (h : l < m) :
    l.flatMap String.utf8EncodeChar < m.flatMap String.utf8EncodeChar := by
  induction l generalizing m with
  | nil =>
    cases m with
    | nil => exact absurd h (List.lt_irrefl _)
    | cons d m =>
      obtain ⟨b, code, hcode⟩ := List.exists_cons_of_ne_nil (String.utf8EncodeChar_ne_nil (c := d))
      rw [List.flatMap_nil, List.flatMap_cons, hcode]
      exact List.nil_lt_cons _ _
  | cons c l ih =>
    cases m with
    | nil => exact absurd h (List.not_lt_nil _)
    | cons d m =>
      rw [List.flatMap_cons, List.flatMap_cons]
      rcases List.cons_lt_cons_iff.mp h with hchar | ⟨rfl, hrest⟩
      · exact encode_append_lt hchar _ _
      · exact List.append_left_lt (ih hrest)

/-- The order of bytes is that of the texts. -/
theorem bytes_lt_iff {s t : String} : bytes s < bytes t ↔ s < t := by
  rw [bytes_eq, bytes_eq, String.lt_iff]
  refine ⟨fun h => ?_, flatMap_encode_lt⟩
  rcases lt_trichotomy s.toList t.toList with hlt | heq | hgt
  · exact hlt
  · rw [heq] at h
    exact absurd h (List.lt_irrefl _)
  · exact absurd h (List.lt_asymm (flatMap_encode_lt hgt))

/-! ## Members of one score -/

theorem notAfter_of_same {s t : Score} (h : s.same t = true) (a b : ContentId) :
    SortedSet.notAfter (encodeMember a, s) (encodeMember b, t) = true ↔ a.toNat ≤ b.toNat := by
  have hbelow : s.below t = false := by
    unfold Score.same at h
    unfold Score.below
    simp only [Bool.and_eq_true, decide_eq_true_eq] at h
    rw [h.2]
    simp
  simp only [SortedSet.notAfter, hbelow, h, Bool.false_or, Bool.true_and, decide_eq_true_eq,
    encodeMember_lt_iff, not_lt]

theorem order_ne_gt_iff (s : Score) (a b : ContentId) :
    Position.order ⟨s, a⟩ ⟨s, b⟩ ≠ .gt ↔ a.toNat ≤ b.toNat := by
  rw [Position.order_eq_compare, Ne, compare_gt_iff_gt, Position.lt_iff, ← not_lt]
  simp

/-- Members have twenty digits, read back as the identifiers they were written for, and stand in
the order of these by their bytes.  So entries whose scores are one number stand in a set as they
do by their positions. -/
theorem members_stand_as_ids (a b : ContentId) :
    (bytes (encodeMember a) < bytes (encodeMember b) ↔ a < b) ∧
      (encodeMember a).length = 20 ∧ decodeMember (encodeMember a) = .ok a ∧
      ∀ s t : Score, s.same t = true →
        (SortedSet.notAfter (encodeMember a, s) (encodeMember b, t) = true ↔
          Position.order ⟨s, a⟩ ⟨s, b⟩ ≠ .gt) := by
  refine ⟨?_, ?_, decodeMember_encodeMember a, fun s t hsame => ?_⟩
  · rw [bytes_lt_iff, encodeMember_lt_iff, UInt64.lt_iff_toNat_lt]
  · rw [encodeMember, String.length_ofList, length_digitsOf, memberLength]
  · rw [notAfter_of_same hsame, order_ne_gt_iff]

/-- The two greatest identifiers, with scores that are one number and not one pattern of bits. -/
theorem members_stand_as_ids_greatest :
    Score.zero.same .negativeZero = true ∧
      bytes (encodeMember 18446744073709551614) < bytes (encodeMember 18446744073709551615) ∧
      (SortedSet.notAfter (encodeMember 18446744073709551614, .zero)
          (encodeMember 18446744073709551615, .negativeZero) = true ↔
        Position.order ⟨.zero, 18446744073709551614⟩ ⟨.zero, 18446744073709551615⟩ ≠ .gt) :=
  ⟨by decide, (members_stand_as_ids _ _).1.mpr (by decide),
    (members_stand_as_ids _ _).2.2.2 .zero .negativeZero (by decide)⟩

end Redis
end WarmFeed
