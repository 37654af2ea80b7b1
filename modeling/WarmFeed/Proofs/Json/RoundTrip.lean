import WarmFeed.Json.Reader
import WarmFeed.Proofs.Json.Number
import WarmFeed.Proofs.Json.Quoted

/-!
# Values read back

A value without scores, whose whole numbers have 64 bits, is read back from its text: `read_chars`.
Whatever follows the text is left over, as long as it would not go on a number.
-/

namespace WarmFeed
namespace Json

/-- A value that its text says all of. -/
inductive Exact : Json → Prop
  | null : Exact null
  | bool (b : Bool) : Exact (bool b)
  | whole {n : Int} (hlow : -0x8000000000000000 ≤ n) (hhigh : n < 0x10000000000000000) :
    Exact (number (.whole n))
  | string (s : String) : Exact (string s)
  | list {items : List Json} (h : ∀ v ∈ items, Exact v) : Exact (list items)
  | record {members : List (String × Json)} (h : ∀ m ∈ members, Exact m.2) :
    Exact (record members)

theorem exact_natural {n : Nat} (h : n < 0x10000000000000000) : Exact (natural n) :=
  .whole (by omega) (by omega)

theorem exact_optional {α : Type} {write : α → Json} (h : ∀ a, Exact (write a)) (o : Option α) :
    Exact (optional write o) := by
  cases o with
  | none => exact .null
  | some a => exact h a

theorem skipBlanks_cons {c : Char} (h : isBlank c = false) (cs : List Char) :
    skipBlanks (c :: cs) = c :: cs :=
  List.dropWhile_cons_of_neg (by rw [h]; exact Bool.false_ne_true)

theorem chars_natural (n : Nat) : (number (.whole n)).chars = Nat.toDigits 10 n := by
  unfold chars
  exact Nat.toList_repr

theorem chars_negSucc (n : Nat) :
    (number (.whole (.negSucc n))).chars = '-' :: Nat.toDigits 10 (n + 1) := by
  have htext : toString (Int.negSucc n) = "-" ++ Nat.repr (n + 1) := rfl
  unfold chars
  rw [Number.chars, htext, String.toList_append, Nat.toList_repr]
  rfl

theorem chars_string (s : String) :
    (string s).chars = '"' :: (s.toList.flatMap escaped ++ ['"']) := by
  unfold chars
  rfl

theorem chars_list (items : List Json) :
    (list items).chars = '[' :: (itemsChars items ++ [']']) := by
  rw [list, chars]
  rfl

theorem chars_object (members : List (Json × Json)) :
    (object members none).chars = '{' :: (membersChars members ++ ['}']) := by
  rw [chars]
  rfl

def startsNumber (c : Char) : Bool := c = '-' || c.isDigit

section StartsNumber

variable {c : Char} (h : startsNumber c = true)

include h

theorem startsNumber_ne {d : Char} (hd : startsNumber d = false) : c ≠ d := by
  rintro rfl
  rw [h] at hd
  cases hd

theorem startsNumber_not_blank : isBlank c = false := by
  simp only [isBlank, startsNumber_ne h (d := ' ') rfl, startsNumber_ne h (d := '\n') rfl,
    startsNumber_ne h (d := '\t') rfl, startsNumber_ne h (d := '\r') rfl, decide_false,
    Bool.or_self]

theorem readValue_number (fuel : Nat) (cs : List Char) :
    readValue (fuel + 1) (c :: cs) = readNumber (c :: cs) := by
  rw [readValue, skipBlanks_cons (startsNumber_not_blank h)]
  dsimp only
  rw [if_neg (startsNumber_ne h rfl), if_neg (startsNumber_ne h rfl),
    if_neg (startsNumber_ne h rfl), if_neg (startsNumber_ne h rfl), if_neg (startsNumber_ne h rfl),
    if_neg (startsNumber_ne h rfl)]
  exact if_pos h

end StartsNumber

theorem startsNumber_of_isDigit {c : Char} (h : c.isDigit = true) : startsNumber c = true := by
  rw [startsNumber, h, Bool.or_true]

/-- No blank stands before a value, and no bracket that closes a list. -/
theorem Exact.exists_chars {v : Json} (h : Exact v) :
    ∃ c cs, v.chars = c :: cs ∧ isBlank c = false ∧ c ≠ ']' := by
  cases h with
  | null => exact ⟨'n', "ull".toList, by unfold chars; rfl, by decide, by decide⟩
  | bool b =>
    cases b with
    | false => exact ⟨'f', "alse".toList, by unfold chars; rfl, by decide, by decide⟩
    | true => exact ⟨'t', "rue".toList, by unfold chars; rfl, by decide, by decide⟩
  | string s => exact ⟨'"', _, chars_string s, by decide, by decide⟩
  | @list items h => exact ⟨'[', _, chars_list items, by decide, by decide⟩
  | record h => exact ⟨'{', _, chars_object _, by decide, by decide⟩
  | @whole n hlow hhigh =>
    cases n with
    | negSucc n => exact ⟨'-', _, chars_negSucc n, by decide, by decide⟩
    | ofNat n =>
      obtain ⟨c, cs, hdigits, hdigit⟩ := Text.exists_toDigits n
      have hstarts := startsNumber_of_isDigit hdigit
      exact ⟨c, cs, (chars_natural n).trans hdigits, startsNumber_not_blank hstarts,
        startsNumber_ne hstarts rfl⟩

def Reads (v : Json) : Prop :=
  ∀ ⦃fuel : Nat⦄ ⦃rest : List Char⦄, 2 * v.chars.length ≤ fuel → EndsNumber rest →
    readValue fuel (v.chars ++ rest) = (v, some rest)

theorem Exact.exists_fuel {v : Json} (h : Exact v) {fuel : Nat}
    (hfuel : 2 * v.chars.length ≤ fuel) : ∃ n, fuel = n + 1 := by
  obtain ⟨c, cs, hchars, -⟩ := h.exists_chars
  rw [hchars, List.length_cons] at hfuel
  exact Nat.exists_eq_add_one_of_ne_zero (by omega)

theorem reads_natural {n : Nat} (h : n < 0x10000000000000000) : Reads (number (.whole n)) := by
  intro fuel rest hfuel hrest
  obtain ⟨fuel, rfl⟩ := (exact_natural h).exists_fuel hfuel
  obtain ⟨c, cs, hdigits, hdigit⟩ := Text.exists_toDigits n
  rw [chars_natural, hdigits, List.cons_append,
    readValue_number (startsNumber_of_isDigit hdigit), ← List.cons_append, ← hdigits,
    readNumber_toDigits hrest h]

theorem reads_negSucc {n : Nat} (h : n < 0x8000000000000000) :
    Reads (number (.whole (.negSucc n))) := by
  intro fuel rest hfuel hrest
  obtain ⟨fuel, rfl⟩ := Exact.exists_fuel (.whole (by omega) (by omega)) hfuel
  rw [chars_negSucc, List.cons_append, readValue_number rfl, ← List.cons_append,
    readNumber_negative hrest (Nat.succ_pos n) h]
  rfl

theorem reads_string (s : String) : Reads (string s) := by
  intro fuel rest hfuel hrest
  obtain ⟨fuel, rfl⟩ := (Exact.string s).exists_fuel hfuel
  rw [chars_string, List.cons_append, List.append_assoc, readValue, skipBlanks_cons (by decide)]
  exact readString_escaped s rest

theorem readWord_append (value : Json) (word rest : List Char) :
    readWord value word (word ++ rest) = (value, some rest) := by
  induction word with
  | nil => rfl
  | cons c word ih => exact (if_pos rfl).trans ih

theorem reads_null : Reads null := by
  intro fuel rest hfuel hrest
  obtain ⟨fuel, rfl⟩ := Exact.null.exists_fuel hfuel
  rw [chars, readValue]
  exact readWord_append null "ull".toList rest

theorem reads_bool (b : Bool) : Reads (bool b) := by
  intro fuel rest hfuel hrest
  obtain ⟨fuel, rfl⟩ := (Exact.bool b).exists_fuel hfuel
  rw [chars, readValue]
  cases b with
  | false => exact readWord_append (bool false) "alse".toList rest
  | true => exact readWord_append (bool true) "rue".toList rest

/-! ## Arrays and objects -/

theorem endsNumber_of_mem {c : Char} (h : c ∈ [',', ']', '}']) (rest : List Char) :
    EndsNumber (c :: rest) := by
  intro d hd
  obtain rfl : c = d := Option.some.inj hd
  rw [List.mem_cons, List.mem_cons, List.mem_singleton] at h
  rcases h with rfl | rfl | rfl <;> decide

theorem itemsChars_cons (v w : Json) (more : List Json) :
    itemsChars (v :: w :: more) = v.chars ++ ',' :: itemsChars (w :: more) := by
  rw [itemsChars, laterItemsChars, itemsChars]
  rfl

theorem itemsChars_singleton (v : Json) : itemsChars [v] = v.chars := by
  rw [itemsChars, laterItemsChars, List.append_nil]

theorem membersChars_cons (name v : Json) (m : Json × Json) (more : List (Json × Json)) :
    membersChars ((name, v) :: m :: more) =
      name.chars ++ ':' :: (v.chars ++ ',' :: membersChars (m :: more)) := by
  rw [membersChars, laterMembersChars, membersChars, memberChars, List.append_assoc]
  rfl

theorem membersChars_singleton (name v : Json) :
    membersChars [(name, v)] = name.chars ++ ':' :: v.chars := by
  rw [membersChars, laterMembersChars, List.append_nil, memberChars]

/-- The items of an array, when each is read back from its own text. -/
theorem readItems_chars {items : List Json} (hne : items ≠ []) (h : ∀ v ∈ items, Reads v)
    {fuel : Nat} (hfuel : 2 * (itemsChars items).length + 1 ≤ fuel) (rest : List Char) :
    readItems fuel (itemsChars items ++ ']' :: rest) = ⟨items, none, some rest⟩ := by
  induction items generalizing fuel with
  | nil => contradiction
  | cons v items ih =>
    obtain ⟨fuel, rfl⟩ := Nat.exists_eq_add_one_of_ne_zero (n := fuel) (by omega)
    have hv := h v List.mem_cons_self
    cases items with
    | nil =>
      rw [itemsChars_singleton] at hfuel ⊢
      rw [readItems, hv (by omega) (endsNumber_of_mem (by decide) rest)]
      rfl
    | cons w more =>
      rw [itemsChars_cons, List.length_append, List.length_cons] at hfuel
      rw [itemsChars_cons, List.append_assoc, List.cons_append, readItems,
        hv (by omega) (endsNumber_of_mem (by decide) _)]
      dsimp only
      rw [skipBlanks_cons (by decide)]
      dsimp only
      rw [if_pos rfl, ih (List.cons_ne_nil _ _) (fun u hu => h u (List.mem_cons_of_mem _ hu))
        (by omega)]
      rfl

theorem reads_list {items : List Json} (hexact : ∀ v ∈ items, Exact v)
    (h : ∀ v ∈ items, Reads v) : Reads (list items) := by
  intro fuel rest hfuel hrest
  obtain ⟨fuel, rfl⟩ := (Exact.list hexact).exists_fuel hfuel
  rw [chars_list, List.length_cons, List.length_append, List.length_singleton] at hfuel
  rw [chars_list, List.cons_append, List.append_assoc, readValue, skipBlanks_cons (by decide)]
  dsimp only
  rw [if_neg (by decide), if_pos rfl]
  cases items with
  | nil =>
    rw [itemsChars]
    rfl
  | cons v more =>
    -- A value stands next, and no value starts with the bracket of an empty array.
    obtain ⟨c, cs, hv, hblank, hbracket⟩ := (hexact v List.mem_cons_self).exists_chars
    have hopen : skipBlanks (itemsChars (v :: more) ++ ([']'] ++ rest)) =
        c :: (cs ++ laterItemsChars more ++ ([']'] ++ rest)) := by
      rw [itemsChars, hv]
      exact skipBlanks_cons hblank _
    rw [hopen]
    dsimp only
    rw [if_neg hbracket, List.singleton_append,
      readItems_chars (List.cons_ne_nil v more) h (by omega)]
    rfl

/-- The members of an object, when each has a name and its value is read back. -/
theorem readMembers_chars {members : List (Json × Json)} (hne : members ≠ [])
    (h : ∀ m ∈ members, (∃ name, m.1 = string name) ∧ Reads m.2) {fuel : Nat}
    (hfuel : 2 * (membersChars members).length + 1 ≤ fuel) (rest : List Char) :
    readMembers fuel (membersChars members ++ '}' :: rest) = ⟨members, none, some rest⟩ := by
  induction members generalizing fuel with
  | nil => contradiction
  | cons m members ih =>
    obtain ⟨fuel, rfl⟩ := Nat.exists_eq_add_one_of_ne_zero (n := fuel) (by omega)
    obtain ⟨name, v⟩ := m
    obtain ⟨⟨name, rfl⟩, hv⟩ : (∃ s, name = string s) ∧ Reads v := h _ List.mem_cons_self
    have hname : (string name).passedNameFault.isSome ≠ true := Bool.false_ne_true
    have hcolon : ∀ cs, EndsNumber (':' :: cs) := by
      intro cs c hc
      rw [← Option.some.inj hc]
      decide
    cases members with
    | nil =>
      rw [membersChars_singleton] at hfuel ⊢
      rw [List.length_append, List.length_cons] at hfuel
      rw [List.append_assoc, List.cons_append, readMembers,
        reads_string name (by omega) (hcolon _)]
      dsimp only
      rw [if_neg hname, skipBlanks_cons (by decide)]
      dsimp only
      rw [if_neg (fun h => h rfl), hv (by omega) (endsNumber_of_mem (by decide) rest)]
      rfl
    | cons m more =>
      rw [membersChars_cons] at hfuel ⊢
      rw [List.length_append, List.length_cons, List.length_append, List.length_cons] at hfuel
      rw [List.append_assoc, List.cons_append, List.append_assoc, List.cons_append, readMembers,
        reads_string name (by omega) (hcolon _)]
      dsimp only
      rw [if_neg hname, skipBlanks_cons (by decide)]
      dsimp only
      rw [if_neg (fun h => h rfl), hv (by omega) (endsNumber_of_mem (by decide) _)]
      dsimp only
      rw [skipBlanks_cons (by decide)]
      dsimp only
      rw [if_pos rfl, ih (List.cons_ne_nil m more) (fun n hn => h n (List.mem_cons_of_mem _ hn))
        (by omega)]
      rfl

theorem reads_record {members : List (String × Json)} (hexact : ∀ m ∈ members, Exact m.2)
    (h : ∀ m ∈ members, Reads m.2) : Reads (record members) := by
  intro fuel rest hfuel hrest
  obtain ⟨fuel, rfl⟩ := (Exact.record hexact).exists_fuel hfuel
  rw [record, chars_object, List.length_cons, List.length_append, List.length_singleton] at hfuel
  rw [record, chars_object, List.cons_append, List.append_assoc, readValue,
    skipBlanks_cons (by decide)]
  dsimp only
  rw [if_neg (by decide), if_neg (by decide), if_pos rfl]
  cases members with
  | nil =>
    rw [List.map_nil, membersChars]
    rfl
  | cons m more =>
    -- The quote of a name stands next.
    obtain ⟨cs, hopen⟩ : ∃ cs, skipBlanks
        (membersChars ((m :: more).map fun m => (string m.1, m.2)) ++ (['}'] ++ rest)) =
        '"' :: cs := by
      rw [List.map_cons, membersChars, memberChars, chars_string]
      exact ⟨_, skipBlanks_cons (by decide) _⟩
    have hmembers : ∀ n ∈ (m :: more).map fun m => (string m.1, m.2),
        (∃ name, n.1 = string name) ∧ Reads n.2 := by
      intro n hn
      obtain ⟨p, hp, rfl⟩ := List.mem_map.mp hn
      exact ⟨⟨p.1, rfl⟩, h p hp⟩
    have hne : ((m :: more).map fun m => (string m.1, m.2)) ≠ [] := List.cons_ne_nil _ _
    rw [hopen]
    dsimp only
    rw [if_neg (by decide), List.singleton_append, readMembers_chars hne hmembers (by omega)]

/-- A value that is exact is read back from its text, whatever follows it. -/
theorem Exact.reads {v : Json} (h : Exact v) : Reads v := by
  induction h with
  | null => exact reads_null
  | bool b => exact reads_bool b
  | string s => exact reads_string s
  | list h ih => exact reads_list h ih
  | record h ih => exact reads_record h ih
  | @whole n hlow hhigh =>
    cases n with
    | ofNat n => exact reads_natural (Int.ofNat_lt.mp hhigh)
    | negSucc n => exact reads_negSucc (by omega)

/-- Whoever takes something from a text gets what it would take from the value itself. -/
theorem readAs_text {α : Type} {v : Json} (h : Exact v) (take : Json → Except Fault α) :
    readAs take v.text = take v := by
  have hread : read v.text.toList = (v, some []) := by
    have hall := h.reads (Nat.le_add_right (2 * v.chars.length) 2) endsNumber_nil
    rwa [List.append_nil, ← String.toList_ofList (l := v.chars)] at hall
  rw [readAs, hread]
  cases hv : take v with
  | error f => exact congrArg (· >>= _) hv
  | ok a => exact congrArg (· >>= _) hv

end Json
end WarmFeed
