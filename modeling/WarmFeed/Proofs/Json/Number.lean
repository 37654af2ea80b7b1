import WarmFeed.Json.Number
import WarmFeed.Json.Printer
import WarmFeed.Proofs.Digits

/-!
# Whole numbers read back

A whole number of 64 bits, with or without a sign, is written by its digits.  The reader takes
these digits as they are, as long as nothing follows that would go on the number.
-/

namespace WarmFeed
namespace Json

def EndsNumber (cs : List Char) : Prop :=
  ∀ c ∈ cs.head?, c.isDigit = false ∧ c ≠ '.' ∧ c ≠ 'e' ∧ c ≠ 'E'

theorem EndsNumber.noDigit {cs : List Char} (h : EndsNumber cs) : Text.NoDigit cs :=
  fun c hc => (h c hc).1

theorem endsNumber_nil : EndsNumber [] := by
  intro c hc
  cases hc

theorem readTail_of_endsNumber {cs : List Char} (h : EndsNumber cs) :
    readTail cs = .ok ([], none, cs) := by
  cases cs with
  | nil => rfl
  | cons c cs =>
    obtain ⟨-, hpoint, hsmall, hcapital⟩ := h c rfl
    unfold readTail
    split
    · next heq => exact absurd (List.cons.inj heq).1 hpoint
    · simp [hsmall, hcapital, pure, bind, Except.pure, Except.bind]

theorem le_ofDigitChars (cs : List Char) (m : Nat) : m ≤ Nat.ofDigitChars 10 cs m := by
  induction cs generalizing m with
  | nil => exact Nat.le_refl m
  | cons c cs ih =>
    rw [Nat.ofDigitChars_cons]
    exact Nat.le_trans (by omega) (ih _)

/-- Digits are all absorbed if their value fits. -/
theorem absorb_eq {cs : List Char} {m : Nat}
    (h : Nat.ofDigitChars 10 cs m < 0x10000000000000000) :
    absorb m cs = (Nat.ofDigitChars 10 cs m, 0) := by
  induction cs generalizing m with
  | nil => rfl
  | cons c cs ih =>
    rw [Nat.ofDigitChars_cons] at h ⊢
    have hnext := le_ofDigitChars cs (10 * m + (c.toNat - '0'.toNat))
    exact (if_neg (Nat.not_le.mpr (Nat.lt_of_le_of_lt hnext h))).trans (ih h)

theorem absorb_toDigits {n : Nat} (h : n < 0x10000000000000000) :
    absorb 0 (Nat.toDigits 10 n) = (n, 0) := by
  have hvalue := Nat.ofDigitChars_ten_toDigits (n := n)
  rw [absorb_eq (by rw [hvalue]; exact h), hvalue]

theorem numberOf_toDigits {n : Nat} (h : n < 0x10000000000000000) :
    numberOf false (Nat.toDigits 10 n) [] none = number (.whole n) := by
  unfold numberOf
  rw [absorb_toDigits h]
  rfl

theorem numberOf_negative_toDigits {n : Nat} (hpos : 0 < n) (h : n ≤ 0x8000000000000000) :
    numberOf true (Nat.toDigits 10 n) [] none = number (.whole (-(n : Int))) := by
  unfold numberOf
  rw [absorb_toDigits (by omega)]
  have hfits : (decide (n = 0) || decide (0x8000000000000000 < n)) = false := by
    rw [Bool.or_eq_false_iff, decide_eq_false_iff_not, decide_eq_false_iff_not]
    omega
  simp only [ne_eq, not_true_eq_false, ↓reduceIte, Bool.not_true, Bool.false_eq_true, hfits]

/-- A single zero, or a number that does not start with one. -/
theorem toDigits_leading (n : Nat) :
    (decide ((Nat.toDigits 10 n).head? = some '0') &&
      decide ((Nat.toDigits 10 n).length ≠ 1)) = false := by
  obtain rfl | hpos := Nat.eq_zero_or_pos n
  · rfl
  · rw [decide_eq_false (Text.head?_toDigits_ne_zero hpos), Bool.false_and]

theorem isEmpty_toDigits (n : Nat) : (Nat.toDigits 10 n).isEmpty = false := by
  rw [List.isEmpty_eq_false_iff]
  exact Nat.toDigits_ne_nil

section Digits

variable {rest : List Char} (hrest : EndsNumber rest)

include hrest

theorem readNumber_toDigits {n : Nat} (h : n < 0x10000000000000000) :
    readNumber (Nat.toDigits 10 n ++ rest) = (number (.whole n), some rest) := by
  have hsign : ¬ (Nat.toDigits 10 n ++ rest).head? = some '-' := by
    obtain ⟨c, cs, hcons, hdigit⟩ := Text.exists_toDigits n
    rw [hcons, List.cons_append, List.head?_cons, Option.some.injEq]
    rintro rfl
    exact absurd hdigit (by decide)
  have hdigits : ∀ c ∈ Nat.toDigits 10 n, c.isDigit = true :=
    fun _ => Text.isDigit_of_mem_toDigits
  simp only [readNumber, hsign, decide_false, Bool.false_eq_true, ↓reduceIte,
    Text.takeWhile_isDigit hdigits hrest.noDigit, Text.dropWhile_isDigit hdigits hrest.noDigit,
    isEmpty_toDigits, toDigits_leading, readTail_of_endsNumber hrest, numberOf_toDigits h]

theorem readNumber_negative {n : Nat} (hpos : 0 < n) (h : n ≤ 0x8000000000000000) :
    readNumber ('-' :: Nat.toDigits 10 n ++ rest) = (number (.whole (-(n : Int))), some rest) := by
  have hdigits : ∀ c ∈ Nat.toDigits 10 n, c.isDigit = true :=
    fun _ => Text.isDigit_of_mem_toDigits
  simp only [readNumber, List.cons_append, List.head?_cons, decide_true, ↓reduceIte,
    List.drop_succ_cons, List.drop_zero, Text.takeWhile_isDigit hdigits hrest.noDigit,
    Text.dropWhile_isDigit hdigits hrest.noDigit, isEmpty_toDigits, toDigits_leading,
    readTail_of_endsNumber hrest, numberOf_negative_toDigits hpos h, Bool.false_eq_true]

end Digits

end Json
end WarmFeed
