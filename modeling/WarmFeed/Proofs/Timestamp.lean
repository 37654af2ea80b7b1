import WarmFeed.Proofs.Digits
import WarmFeed.Timestamp

/-!
# Timestamps read back

A timestamp as it is written is read back as it was, for every year and every nanosecond:
`parse?_chars`.  Only an inserted second has to stand at the end of its minute, as it is written as
second 60 of it.
-/

namespace WarmFeed
namespace Timestamp

section Padded

variable (width n : Nat)

theorem isDigit_of_mem_padded {c : Char} (h : c ∈ padded width n) : c.isDigit = true := by
  obtain h | h := List.mem_append.mp h
  · rw [List.eq_of_mem_replicate h]
    rfl
  · exact Text.isDigit_of_mem_toDigits h

theorem valueOf_padded : valueOf (padded width n) = n := by
  have hread : valueOf (padded width n) = Nat.ofDigitChars 10 (padded width n) 0 := rfl
  rw [hread, padded, Nat.ofDigitChars_append, Nat.ofDigitChars_replicate_zero, Nat.mul_zero,
    Nat.ofDigitChars_ten_toDigits]

theorem padded_ne_nil : padded width n ≠ [] := by
  intro h
  exact Nat.toDigits_ne_nil (List.append_eq_nil_iff.mp h).2

variable {width n} in
theorem length_padded (h : n < 10 ^ width) (hwidth : 0 < width) :
    (padded width n).length = width := by
  have hdigits := (Nat.length_toDigits_le_iff (by decide) hwidth).mpr h
  rw [padded, List.length_append, List.length_replicate]
  omega

end Padded

/-- Digits are read to their end, whether no more may be read or something else follows. -/
theorem readDigits_append {most : Nat} {digits rest : List Char}
    (hdigits : ∀ c ∈ digits, c.isDigit = true) (hne : digits ≠ [])
    (hlength : digits.length ≤ most) (hrest : digits.length = most ∨ Text.NoDigit rest) :
    readDigits most (digits ++ rest) = some (valueOf digits, rest) := by
  have hcut : (digits ++ rest).take most = digits ++ rest.take (most - digits.length) := by
    rw [List.take_append, List.take_of_length_le hlength]
  have hnext : Text.NoDigit (rest.take (most - digits.length)) := by
    intro c hc
    obtain hall | hrest := hrest
    · rw [hall, Nat.sub_self] at hc
      cases hc
    · rw [List.head?_take] at hc
      split at hc
      · cases hc
      · exact hrest c hc
  rw [readDigits, hcut, Text.takeWhile_isDigit hdigits hnext, List.drop_left]
  exact if_neg (by rw [List.isEmpty_iff]; exact hne)

theorem trimStart_cons {c : Char} (h : Text.isBlank c = false) (cs : List Char) :
    Text.trimStart (c :: cs) = c :: cs :=
  List.dropWhile_cons_of_neg (by rw [h]; exact Bool.false_ne_true)

theorem isBlank_of_isDigit {c : Char} (h : c.isDigit = true) : Text.isBlank c = false := by
  have hall : ∀ n < 10, Text.isBlank (Char.ofNat (48 + n)) = false := by decide
  rw [Char.isDigit, Bool.and_eq_true, decide_eq_true_eq, decide_eq_true_eq] at h
  have hlow : 48 ≤ c.toNat := UInt32.le_iff_toNat_le.mp h.1
  have hhigh : c.toNat ≤ 57 := UInt32.le_iff_toNat_le.mp h.2
  have hc := hall (c.toNat - 48) (by omega)
  rwa [Nat.add_sub_cancel' hlow, Char.ofNat_toNat] at hc

theorem trimStart_padded (width n : Nat) (rest : List Char) :
    Text.trimStart (padded width n ++ rest) = padded width n ++ rest := by
  obtain ⟨c, cs, hpadded⟩ := List.exists_cons_of_ne_nil (padded_ne_nil width n)
  have hdigit : c.isDigit = true :=
    isDigit_of_mem_padded width n (by rw [hpadded]; exact List.mem_cons_self)
  rw [hpadded]
  exact trimStart_cons (isBlank_of_isDigit hdigit) _

theorem readDigits_padded {width most n : Nat} (h : n < 10 ^ width) (hwidth : 0 < width)
    (hmost : width ≤ most) {rest : List Char} (hrest : width = most ∨ Text.NoDigit rest) :
    readDigits most (padded width n ++ rest) = some (n, rest) := by
  have hlength := length_padded h hwidth
  have hread := readDigits_append (fun _ => isDigit_of_mem_padded width n)
    (padded_ne_nil width n) (Nat.le_trans (Nat.le_of_eq hlength) hmost)
    (hrest.imp_left hlength.trans)
  rwa [valueOf_padded] at hread

theorem readField_padded {n : Nat} (h : n < 100) (rest : List Char) :
    readField (padded 2 n ++ rest) = some (n, rest) := by
  rw [readField, trimStart_padded]
  exact readDigits_padded h (by decide) (Nat.le_refl 2) (.inl rfl)

theorem readNext_padded {mark : Char} (hmark : Text.isBlank mark = false) {n : Nat} (h : n < 100)
    (rest : List Char) : readNext mark (mark :: (padded 2 n ++ rest)) = some (n, rest) := by
  rw [readNext, trimStart_cons hmark, readChar, if_pos rfl]
  exact readField_padded h rest

/-! ## Year and fraction -/

/-- Digits without a sign are a year of at most four. -/
theorem readYear_padded (width n : Nat) (rest : List Char) :
    readYear (padded width n ++ rest) =
      (readDigits 4 (padded width n ++ rest)).map fun r => ((r.1 : Int), r.2) := by
  obtain ⟨c, cs, hpadded⟩ := List.exists_cons_of_ne_nil (padded_ne_nil width n)
  have hdigit : c.isDigit = true :=
    isDigit_of_mem_padded width n (by rw [hpadded]; exact List.mem_cons_self)
  rw [readYear, trimStart_padded, hpadded]
  split
  · next heq =>
    rw [(List.cons.inj heq).1] at hdigit
    cases hdigit
  · next heq =>
    rw [(List.cons.inj heq).1] at hdigit
    cases hdigit
  · rfl

/-- A year is told from what follows it by its width or by its sign. -/
theorem readYear_yearText (year : Int) {rest : List Char} (hrest : Text.NoDigit rest) :
    readYear (yearText year ++ rest) = some (year, rest) := by
  unfold yearText
  split
  · next hplain =>
    rw [readYear_padded, readDigits_padded (by omega) (by decide) (Nat.le_refl 4) (.inl rfl)]
    exact congrArg (fun y => some (y, rest)) (Int.toNat_of_nonneg hplain.1)
  · next hsigned =>
    have hdigits : readDigits (padded 4 year.natAbs ++ rest).length (padded 4 year.natAbs ++ rest) =
        some (year.natAbs, rest) := by
      have hread := readDigits_append (fun _ => isDigit_of_mem_padded 4 year.natAbs)
        (padded_ne_nil 4 year.natAbs)
        (Nat.le_trans (Nat.le_add_right _ rest.length) (Nat.le_of_eq List.length_append.symm))
        (.inr hrest)
      rwa [valueOf_padded] at hread
    split
    · next hnegative =>
      rw [readYear, List.cons_append, trimStart_cons (by decide)]
      refine (congrArg (Option.map fun r => (-(r.1 : Int), r.2)) hdigits).trans ?_
      exact congrArg (fun y => some (y, rest)) (by omega)
    · next hpositive =>
      rw [readYear, List.cons_append, trimStart_cons (by decide)]
      refine (congrArg (Option.map fun r => ((r.1 : Int), r.2)) hdigits).trans ?_
      exact congrArg (fun y => some (y, rest)) (by omega)

/-- A fraction of so many digits counts units of as many nanoseconds. -/
theorem readFraction_padded {width n : Nat} (h : n < 10 ^ width) (hwidth : 0 < width)
    (hmost : width ≤ 9) {rest : List Char} (hrest : Text.NoDigit rest) :
    readFraction ('.' :: (padded width n ++ rest)) = some (n * 10 ^ (9 - width), rest) := by
  have htaken : (padded width n ++ rest).length - rest.length = width := by
    rw [List.length_append, length_padded h hwidth, Nat.add_sub_cancel]
  have hnone : ∀ c ∈ ([] : List Char), c.isDigit = true := fun _ hc => absurd hc List.not_mem_nil
  have hdrop : rest.dropWhile Char.isDigit = rest := Text.dropWhile_isDigit hnone hrest
  rw [readFraction, readDigits_padded h hwidth hmost (.inr hrest)]
  exact congrArg some (Prod.ext (by rw [htaken]; rfl) hdrop)

theorem readFraction_fractionText {nanos : Nat} (h : nanos < 1000000000) (rest : List Char) :
    readFraction (fractionText nanos ++ 'Z' :: rest) = some (nanos, 'Z' :: rest) := by
  have hend : Text.NoDigit ('Z' :: rest) := Text.noDigit_cons rfl
  unfold fractionText
  split
  · next hzero =>
    rw [hzero]
    rfl
  split
  · next hmillis =>
    rw [List.cons_append, readFraction_padded (by omega) (by decide) (by decide) hend]
    exact congrArg (fun n => some (n, 'Z' :: rest)) (by omega)
  split
  · next hmicros =>
    rw [List.cons_append, readFraction_padded (by omega) (by decide) (by decide) hend]
    exact congrArg (fun n => some (n, 'Z' :: rest)) (by omega)
  · rw [List.cons_append, readFraction_padded (by omega) (by decide) (by decide) hend]
    exact congrArg (fun n => some (n, 'Z' :: rest)) (Nat.mul_one nanos)

/-! ## The whole timestamp -/

/-- A second that was inserted stands at the end of a minute. -/
def IsRegular (t : Timestamp) : Prop := t.nanos < 1000000000 ∨ t.second % 60 = 59

theorem daysInMonth_le (year : Int) (month : Nat) : Date.daysInMonth year month ≤ 31 := by
  unfold Date.daysInMonth
  repeat' split
  all_goals omega

theorem isValid_date (t : Timestamp) : t.date.isValid = true := by
  have hmoment := t.hasMoment
  rw [Date.hasMoment, Bool.and_eq_true, Bool.and_eq_true] at hmoment
  exact hmoment.1.1

theorem month_le (t : Timestamp) : t.date.month ≤ 12 := by
  have hvalid := t.isValid_date
  simp only [Date.isValid, Bool.and_eq_true, decide_eq_true_eq] at hvalid
  exact hvalid.1.1.2

theorem day_le (t : Timestamp) : t.date.day ≤ 31 := by
  have hvalid := t.isValid_date
  simp only [Date.isValid, Bool.and_eq_true, decide_eq_true_eq] at hvalid
  exact Nat.le_trans hvalid.2 (daysInMonth_le _ _)

theorem second_lt (t : Timestamp) : t.second < 86400 := by
  have hmoment := t.hasMoment
  simp only [Date.hasMoment, Bool.and_eq_true, decide_eq_true_eq] at hmoment
  exact hmoment.1.2

theorem nanos_lt (t : Timestamp) : t.nanos < 2000000000 := by
  have hmoment := t.hasMoment
  simp only [Date.hasMoment, Bool.and_eq_true, decide_eq_true_eq] at hmoment
  exact hmoment.2

theorem ofLocal?_zero (t : Timestamp) : ofLocal? t.date t.second t.nanos 0 = some t := by
  have hsecond := t.second_lt
  rw [ofLocal?, Int.sub_zero, if_neg (by omega), if_neg (by omega), Int.toNat_natCast, ofParts?,
    dif_pos t.hasMoment]

/-- The second and the nanoseconds as they are written. -/
def shownSecond (t : Timestamp) : Nat :=
  t.second % 60 + (if decide (1000000000 ≤ t.nanos) then 1 else 0)

def shownNanos (t : Timestamp) : Nat :=
  if decide (1000000000 ≤ t.nanos) then t.nanos - 1000000000 else t.nanos

theorem chars_eq (t : Timestamp) :
    t.chars = yearText t.date.year ++ ('-' :: (padded 2 t.date.month ++
      ('-' :: (padded 2 t.date.day ++ ('T' :: (padded 2 (t.second / 3600) ++
        (':' :: (padded 2 (t.second / 60 % 60) ++ (':' :: (padded 2 t.shownSecond ++
          (fractionText t.shownNanos ++ ['Z'])))))))))))  := by
  unfold chars shownSecond shownNanos
  simp only [List.append_assoc, List.cons_append]

theorem shown_of_le {t : Timestamp} (h : 1000000000 ≤ t.nanos) :
    t.shownSecond = t.second % 60 + 1 ∧ t.shownNanos = t.nanos - 1000000000 :=
  ⟨congrArg (t.second % 60 + ·) (if_pos (decide_eq_true h)), if_pos (decide_eq_true h)⟩

theorem shown_of_lt {t : Timestamp} (h : t.nanos < 1000000000) :
    t.shownSecond = t.second % 60 ∧ t.shownNanos = t.nanos := by
  have hnot : ¬ decide (1000000000 ≤ t.nanos) = true := by
    rw [decide_eq_true_eq]
    omega
  exact ⟨congrArg (t.second % 60 + ·) (if_neg hnot), if_neg hnot⟩

theorem shownSecond_le (t : Timestamp) : t.shownSecond ≤ 60 := by
  obtain h | h := Nat.lt_or_ge t.nanos 1000000000
  · rw [(shown_of_lt h).1]
    omega
  · rw [(shown_of_le h).1]
    omega

theorem shownNanos_lt (t : Timestamp) : t.shownNanos < 1000000000 := by
  have hnanos := t.nanos_lt
  obtain h | h := Nat.lt_or_ge t.nanos 1000000000
  · rw [(shown_of_lt h).2]
    exact h
  · rw [(shown_of_le h).2]
    omega

/-- What was written is put together again: second 60 stands for an inserted second. -/
theorem IsRegular.assembled {t : Timestamp} (h : t.IsRegular) :
    (if decide (t.shownSecond = 60) then 59 else t.shownSecond) = t.second % 60 ∧
      (if decide (t.shownSecond = 60) then t.shownNanos + 1000000000 else t.shownNanos) =
        t.nanos := by
  obtain hplain | hinserted := Nat.lt_or_ge t.nanos 1000000000
  · obtain ⟨hsecond, hnanos⟩ := shown_of_lt hplain
    have hnot : ¬ decide (t.shownSecond = 60) = true := by
      rw [decide_eq_true_eq]
      omega
    rw [if_neg hnot, if_neg hnot]
    exact ⟨hsecond, hnanos⟩
  · obtain ⟨hsecond, hnanos⟩ := shown_of_le hinserted
    have hend : t.second % 60 = 59 := h.resolve_left (Nat.not_lt.mpr hinserted)
    have hsixty : decide (t.shownSecond = 60) = true := by
      rw [decide_eq_true_eq]
      omega
    rw [if_pos hsixty, if_pos hsixty]
    exact ⟨hend.symm, by omega⟩

theorem parse?_chars {t : Timestamp} (h : t.IsRegular) : parse? t.chars = some t := by
  obtain ⟨hsecond, hnanos⟩ := h.assembled
  have hmonth := t.month_le
  have hday := t.day_le
  have hofDay := t.second_lt
  have hshown := t.shownSecond_le
  have hparts : t.second / 3600 * 3600 + t.second / 60 % 60 * 60 + t.second % 60 = t.second := by
    omega
  have hbounds : ¬ (!(Text.trimStart []).isEmpty || !t.date.isValid ||
      decide (24 ≤ t.second / 3600) || decide (60 ≤ t.second / 60 % 60) ||
      decide (60 < t.shownSecond) || decide (86400 ≤ (0 : Int).natAbs)) = true := by
    simp only [t.isValid_date, Bool.or_eq_true, decide_eq_true_eq]
    simp [Text.trimStart]
    omega
  rw [chars_eq, parse?, readYear_yearText _ (Text.noDigit_cons (by decide))]
  simp only [Option.bind_eq_bind, Option.bind_some]
  rw [readNext_padded (by decide) (by omega)]
  simp only [Option.bind_some]
  rw [readNext_padded (by decide) (by omega)]
  simp only [Option.bind_some, decide_true, Bool.true_or, ↓reduceIte]
  rw [readField_padded (by omega)]
  simp only [Option.bind_some]
  rw [readNext_padded (by decide) (by omega)]
  simp only [Option.bind_some]
  rw [readNext_padded (by decide) (by omega)]
  simp only [Option.bind_some]
  rw [readFraction_fractionText t.shownNanos_lt]
  simp only [Option.bind_some]
  rw [trimStart_cons (by decide), readOffset, if_pos (by decide)]
  simp only [Option.bind_some, hsecond, hnanos, hparts]
  rw [if_neg hbounds]
  exact ofLocal?_zero t

end Timestamp
end WarmFeed
