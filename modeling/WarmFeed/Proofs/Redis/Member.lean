import Mathlib.Algebra.Group.Nat.Defs
import Mathlib.Data.List.Basic
import WarmFeed.Redis.Member

/-!
# Members stand for identifiers

A member reads back as the identifier that it was written for, and members are
ordered as their identifiers are.  Twenty digits suffice for every identifier,
and texts of one length with leading zeros compare as the numbers do.
-/

namespace WarmFeed
namespace Redis

theorem toNat_digitChar : ∀ d < 10, (Nat.digitChar d).toNat - 48 = d := by decide

theorem isDigit_digitChar {d : Nat} (h : d < 10) : (Nat.digitChar d).isDigit = true := by
  rw [Nat.isDigit_digitChar, decide_eq_true h]

theorem digitChar_lt_iff : ∀ a < 10, ∀ b < 10, (Nat.digitChar a < Nat.digitChar b ↔ a < b) := by
  decide

theorem length_digitsOf (width n : Nat) : (digitsOf width n).length = width := by
  induction width generalizing n with
  | zero => rfl
  | succ width ih => rw [digitsOf, List.length_append, ih, List.length_singleton]

theorem isDigit_of_mem_digitsOf {width n : Nat} {c : Char} (h : c ∈ digitsOf width n) :
    c.isDigit = true := by
  induction width generalizing n with
  | zero => exact absurd h List.not_mem_nil
  | succ width ih =>
    rw [digitsOf, List.mem_append, List.mem_singleton] at h
    rcases h with h | rfl
    · exact ih h
    · exact isDigit_digitChar (Nat.mod_lt _ (by decide))

/-! ## Reading back -/

theorem appendDigits_append (n : Nat) (l m : List Char) :
    Text.appendDigits n (l ++ m) =
      (Text.appendDigits n l).bind fun k => Text.appendDigits k m := by
  induction l generalizing n with
  | nil => rfl
  | cons c l ih =>
    rw [List.cons_append, Text.appendDigits, Text.appendDigits]
    split
    · rfl
    · simp only [ih]
      split <;> rfl

/-- Digits are appended as long as the number fits in a word. -/
theorem appendDigits_digitsOf {width n m : Nat} (hn : n < 10 ^ width)
    (hfits : m * 10 ^ width + n < 2 ^ 64) :
    Text.appendDigits m (digitsOf width n) = .ok (m * 10 ^ width + n) := by
  induction width generalizing n with
  | zero =>
    obtain rfl : n = 0 := by simpa using hn
    rw [digitsOf, Text.appendDigits, Nat.pow_zero, Nat.mul_one, Nat.add_zero]
  | succ width ih =>
    have hpow : m * 10 ^ (width + 1) = 10 * (m * 10 ^ width) := by rw [Nat.pow_succ]; ac_rfl
    have hquot : n / 10 < 10 ^ width := by rw [Nat.pow_succ] at hn; omega
    have hlast : n % 10 < 10 := Nat.mod_lt _ (by decide)
    rw [digitsOf, appendDigits_append, ih hquot (by omega)]
    simp only [Except.bind]
    rw [Text.appendDigits, if_neg (by rw [isDigit_digitChar hlast]; decide),
      toNat_digitChar _ hlast]
    have hsum : 10 * (m * 10 ^ width + n / 10) + n % 10 = m * 10 ^ (width + 1) + n := by omega
    have hword : ¬ 0x10000000000000000 ≤ m * 10 ^ (width + 1) + n := by omega
    rw [hsum]
    simp only [if_neg hword]
    rfl

theorem parseWord_of_isDigit {cs : List Char} (hne : cs ≠ []) (h : ∀ c ∈ cs, c.isDigit = true) :
    Text.parseWord (String.ofList cs) = Text.appendDigits 0 cs := by
  have hplus : '+' ∉ cs := fun hmem => absurd (h '+' hmem) (by decide)
  unfold Text.parseWord
  rw [String.toList_ofList]
  split
  · exact absurd rfl hne
  · exact absurd List.mem_cons_self hplus
  · exact absurd List.mem_cons_self hplus
  · rfl

/-- The digits of a word are read back, however many there are. -/
theorem appendDigits_toDigits {n : Nat} (hn : n < 0x10000000000000000) :
    Text.appendDigits 0 (Nat.toDigits 10 n) = .ok n := by
  induction n using Nat.strongRecOn with
  | ind n ih =>
    by_cases hsmall : n < 10
    · have hdigits : Nat.toDigits 10 n = digitsOf 1 n := by
        rw [Nat.toDigits_of_lt_base hsmall, digitsOf, digitsOf, Nat.mod_eq_of_lt hsmall]
        rfl
      rw [hdigits, appendDigits_digitsOf (by omega) (by omega)]
      simp
    · have hdigits : [(n % 10).digitChar] = digitsOf 1 (n % 10) := by
        rw [digitsOf, digitsOf, Nat.mod_mod]
        rfl
      rw [Nat.toDigits_of_base_le (by decide) (by omega), appendDigits_append,
        ih (n / 10) (by omega) (by omega), hdigits]
      show Text.appendDigits (n / 10) (digitsOf 1 (n % 10)) = .ok n
      rw [appendDigits_digitsOf (by omega) (by omega)]
      exact congrArg Except.ok (by omega)

theorem parseWord_toString {n : Nat} (hn : n < 0x10000000000000000) :
    Text.parseWord (toString n) = .ok n := by
  rw [Nat.toString_eq_repr, Nat.repr_eq_ofList_toDigits,
    parseWord_of_isDigit Nat.toDigits_ne_nil
      fun c hc => Nat.isDigit_of_mem_toDigits (by decide) (by decide) hc,
    appendDigits_toDigits hn]

theorem decodeMember_encodeMember (id : ContentId) : decodeMember (encodeMember id) = .ok id := by
  have hlt : id.toNat < 10 ^ memberLength := Nat.lt_trans id.toNat_lt (by decide)
  have hne : digitsOf memberLength id.toNat ≠ [] := by
    rw [← List.length_pos_iff, length_digitsOf]
    decide
  unfold decodeMember encodeMember
  rw [parseWord_of_isDigit hne fun c hc => isDigit_of_mem_digitsOf hc,
    appendDigits_digitsOf hlt (by have := id.toNat_lt; omega)]
  simp

theorem encodeMember_injective : Function.Injective encodeMember := by
  intro a b h
  have hdecode := decodeMember_encodeMember a
  rw [h, decodeMember_encodeMember] at hdecode
  exact (Except.ok.inj hdecode).symm

/-! ## Order -/

/-- Texts of one length are compared by all but the last character first. -/
theorem append_singleton_lt_iff {l m : List Char} {c d : Char} (h : l.length = m.length) :
    l ++ [c] < m ++ [d] ↔ l < m ∨ l = m ∧ c < d := by
  induction l generalizing m with
  | nil =>
    obtain rfl := List.length_eq_zero_iff.mp h.symm
    simp [List.cons_lt_cons_iff]
  | cons a l ih =>
    cases m with
    | nil => exact absurd h (by simp)
    | cons b m =>
      rw [List.cons_append, List.cons_append, List.cons_lt_cons_iff, List.cons_lt_cons_iff,
        ih (by simpa using h), List.cons.injEq]
      tauto

theorem digitsOf_eq_iff {width a b : Nat} (ha : a < 10 ^ width) (hb : b < 10 ^ width) :
    digitsOf width a = digitsOf width b ↔ a = b := by
  refine ⟨fun h => ?_, fun h => h ▸ rfl⟩
  induction width generalizing a b with
  | zero => rw [Nat.pow_zero] at ha hb; omega
  | succ width ih =>
    rw [Nat.pow_succ] at ha hb
    rw [digitsOf, digitsOf] at h
    obtain ⟨hinit, hlast⟩ := List.append_inj h (by rw [length_digitsOf, length_digitsOf])
    have hquot := ih (by omega) (by omega) hinit
    have hchar := congrArg (fun c => c.toNat - 48) (List.cons.inj hlast).1
    simp only [toNat_digitChar _ (Nat.mod_lt _ (by decide : 0 < 10))] at hchar
    omega

theorem digitsOf_lt_iff {width a b : Nat} (ha : a < 10 ^ width) (hb : b < 10 ^ width) :
    digitsOf width a < digitsOf width b ↔ a < b := by
  induction width generalizing a b with
  | zero =>
    rw [Nat.pow_zero] at ha hb
    exact iff_of_false (List.lt_irrefl _) (by omega)
  | succ width ih =>
    rw [Nat.pow_succ] at ha hb
    have hqa : a / 10 < 10 ^ width := by omega
    have hqb : b / 10 < 10 ^ width := by omega
    rw [digitsOf, digitsOf, append_singleton_lt_iff (by rw [length_digitsOf, length_digitsOf]),
      ih hqa hqb, digitsOf_eq_iff hqa hqb,
      digitChar_lt_iff _ (Nat.mod_lt _ (by decide)) _ (Nat.mod_lt _ (by decide))]
    omega

/-- The order of members is that of identifiers. -/
theorem encodeMember_lt_iff (a b : ContentId) :
    encodeMember a < encodeMember b ↔ a.toNat < b.toNat := by
  have hpow : 2 ^ 64 < 10 ^ memberLength := by decide
  show (encodeMember a).toList < (encodeMember b).toList ↔ _
  rw [encodeMember, encodeMember, String.toList_ofList, String.toList_ofList]
  exact digitsOf_lt_iff (Nat.lt_trans a.toNat_lt hpow) (Nat.lt_trans b.toNat_lt hpow)

end Redis
end WarmFeed
