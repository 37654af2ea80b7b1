import WarmFeed.Json.Printer
import WarmFeed.Json.Quoted

/-!
# Texts between quotes read back

Each character is written by one unit, and that unit is one step of the reader: the character
itself, an escape by a letter, or one by its number.  No character needs a surrogate pair, as
only the first thirty-two are written by number.
-/

namespace WarmFeed
namespace Json

theorem hexValue_hexDigit : ∀ d < 16, hexValue (hexDigit d) = some d := by decide

/-- The four digits of a character below the blank. -/
theorem readUnit_low {n : Nat} (hn : n < 256) (rest : List Char) :
    readUnit ('0' :: '0' :: hexDigit (n / 16) :: hexDigit (n % 16) :: rest) = .ok (n, rest) := by
  have hzero : hexValue '0' = some 0 := by decide
  have hvalue : 0 * 4096 + 0 * 256 + n / 16 * 16 + n % 16 = n := by omega
  unfold readUnit
  simp only [hzero, hexValue_hexDigit (n / 16) (by omega), hexValue_hexDigit (n % 16) (by omega),
    hvalue]

/-- Below the blank a character stands for no half of a pair. -/
theorem unitStep_low {n : Nat} (hn : n < 256) (rest : List Char) :
    unitStep ('0' :: '0' :: hexDigit (n / 16) :: hexDigit (n % 16) :: rest) =
      .char (Char.ofNat n) rest := by
  have htrailing : isTrailingHalf n = false := by
    rw [isTrailingHalf, decide_eq_false (by omega), Bool.false_and]
  have hleading : isLeadingHalf n = false := by
    rw [isLeadingHalf, decide_eq_false (by omega), Bool.false_and]
  unfold unitStep
  simp only [readUnit_low hn, htrailing, hleading]
  rfl

theorem step_plain {c : Char} (hquote : c ≠ '"') (hbackslash : c ≠ '\\') (hblank : 32 ≤ c.toNat)
    (rest : List Char) : step (c :: rest) = .char c rest := by
  unfold step
  split
  · contradiction
  · rename_i heq
    exact absurd (List.cons.inj heq).1 hquote
  · rename_i heq
    exact absurd (List.cons.inj heq).1 hbackslash
  · rename_i heq
    obtain ⟨rfl, rfl⟩ := List.cons.inj heq
    exact if_neg (by omega)

/-- A character as it is written is one step of the reader. -/
theorem step_escaped (c : Char) (rest : List Char) : step (escaped c ++ rest) = .char c rest := by
  have hcode {n : Nat} (h : c.toNat = n) : c = Char.ofNat n := by
    rw [← h, Char.ofNat_toNat]
  unfold escaped
  split
  · next hquote => rw [hquote]; rfl
  split
  · next hbackslash => rw [hbackslash]; rfl
  split
  · next hquote hbackslash hprinted => exact step_plain hquote hbackslash hprinted rest
  split
  · next hbackspace => rw [hcode hbackspace]; rfl
  split
  · next hfeed => rw [hcode hfeed]; rfl
  split
  · next hnewline => rw [hnewline]; rfl
  split
  · next hreturn => rw [hreturn]; rfl
  split
  · next htab => rw [htab]; rfl
  · exact (unitStep_low (by omega) rest).trans (by rw [Char.ofNat_toNat])

/-- The reader goes on behind the closing quote with all that was written before it. -/
theorem readQuoted_escaped {fuel : Nat} {cs : List Char} (hfuel : cs.length < fuel)
    (before rest : List Char) :
    readQuoted fuel true before (cs.flatMap escaped ++ '"' :: rest) =
      (string (String.ofList (before.reverse ++ cs)), some rest) := by
  induction cs generalizing fuel before with
  | nil =>
    obtain ⟨fuel, rfl⟩ := Nat.exists_eq_add_one_of_ne_zero (Nat.ne_of_gt hfuel)
    rw [List.append_nil]
    rfl
  | cons c cs ih =>
    obtain ⟨fuel, rfl⟩ := Nat.exists_eq_add_one_of_ne_zero (Nat.ne_zero_of_lt hfuel)
    rw [readQuoted, List.flatMap_cons, List.append_assoc, step_escaped]
    dsimp only
    rw [ih (Nat.lt_of_succ_lt_succ hfuel), List.reverse_cons, List.append_assoc,
      List.singleton_append]

theorem length_le_flatMap_escaped (cs : List Char) :
    cs.length ≤ (cs.flatMap escaped).length := by
  induction cs with
  | nil => exact Nat.le_refl 0
  | cons c cs ih =>
    have hone : 0 < (escaped c).length := by
      unfold escaped
      repeat (split; exact Nat.succ_pos _)
      exact Nat.succ_pos _
    rw [List.flatMap_cons, List.length_append, List.length_cons]
    omega

theorem readString_escaped (s : String) (rest : List Char) :
    readString (s.toList.flatMap escaped ++ '"' :: rest) = (string s, some rest) := by
  have hlength := length_le_flatMap_escaped s.toList
  rw [readString, readQuoted_escaped (by rw [List.length_append]; omega), List.reverse_nil,
    List.nil_append, String.ofList_toList]

end Json
end WarmFeed
