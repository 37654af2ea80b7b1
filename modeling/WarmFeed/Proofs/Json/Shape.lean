import Mathlib.Data.List.Forall2
import WarmFeed.Json.Take

/-!
# Records taken back

A record that was written from a value has one member for each field of its shape, in their
order, and each member suits its field.  Such a record is taken back as that value: `take_record`.
Whether a record fits is shown field by field, the way its shape is put together.
-/

namespace WarmFeed
namespace Json
namespace Shape

variable {α β : Type}

/-- The members are what the fields ask for, and they stand for the value. -/
structure Fits (s : Shape α) (members : List (String × Json)) (a : α) : Prop where
  suits : List.Forall₂ (fun f m => f.name = m.1 ∧ f.fault m.2 = none) s.fields members
  built : ∀ given : String → Option Json, (∀ m ∈ members, given m.1 = some m.2) →
    s.build given = .ok a

theorem fits_pure (a : α) : Fits (pure a) [] a := ⟨.nil, fun _ _ => rfl⟩

theorem Fits.seq {f : Shape (α → β)} {x : Shape α} {ms ns : List (String × Json)} {g : α → β}
    {a : α} (hf : f.Fits ms g) (hx : x.Fits ns a) : (f <*> x).Fits (ms ++ ns) (g a) where
  suits := List.rel_append hf.suits hx.suits
  built given hgiven := by
    have hleft := hf.built given fun m hm => hgiven m (List.mem_append_left ns hm)
    have hright := hx.built given fun m hm => hgiven m (List.mem_append_right ms hm)
    change (do return (← f.build given) (← x.build given)) = _
    rw [hleft, hright]
    rfl

theorem Fits.map {x : Shape α} {ms : List (String × Json)} {a : α} (hx : x.Fits ms a)
    (g : α → β) : (g <$> x).Fits ms (g a) := (fits_pure g).seq hx

theorem faultOf_eq_none {take : Reading α} {v : Json} {a : α} (h : take v = .ok a) :
    faultOf take v = none := by
  rw [faultOf, h]

theorem fits_required {take : Reading α} {v : Json} {a : α} (name : String)
    (h : take v = .ok a) : (required name take).Fits [(name, v)] a where
  suits := .cons ⟨rfl, faultOf_eq_none h⟩ .nil
  built given hgiven := by
    rw [required]
    dsimp only
    rw [hgiven _ (List.mem_singleton_self _)]
    exact h

theorem fits_withDefault {take : Reading α} {v : Json} {a : α} (name : String) (default : α)
    (h : take v = .ok a) : (withDefault name default take).Fits [(name, v)] a where
  suits := .cons ⟨rfl, faultOf_eq_none h⟩ .nil
  built given hgiven := by
    rw [withDefault]
    dsimp only
    rw [hgiven _ (List.mem_singleton_self _)]
    exact h

theorem takeOptional_string (o : Option String) :
    takeOptional takeString (.optional .string o) = .ok o := by
  cases o with
  | none => rfl
  | some s => rfl

theorem fits_optional_string (name : String) (o : Option String) :
    (Shape.optional name takeString).Fits [(name, .optional .string o)] o :=
  fits_withDefault name none (takeOptional_string o)

/-! ## Taking a record -/

/-- Of fields with different names, the one with a member's name is found. -/
theorem find?_of_suits {fields : List Field} {members : List (String × Json)}
    (hsuits : List.Forall₂ (fun f m => f.name = m.1 ∧ f.fault m.2 = none) fields members)
    (hnodup : (members.map Prod.fst).Nodup) :
    ∀ m ∈ members, ∃ f, fields.find? (fun f => f.name = m.1) = some f ∧ f.fault m.2 = none := by
  induction hsuits with
  | nil => exact fun m hm => absurd hm List.not_mem_nil
  | @cons f m fields members hhead htail ih =>
    rw [List.map_cons, List.nodup_cons] at hnodup
    intro n hn
    obtain rfl | hn := List.mem_cons.mp hn
    · exact ⟨f, List.find?_cons_of_pos (decide_eq_true hhead.1), hhead.2⟩
    · obtain ⟨g, hfound, hg⟩ := ih hnodup.2 n hn
      have hother : f.name ≠ n.1 := by
        intro h
        exact hnodup.1 (List.mem_map.mpr ⟨n, hn, h.symm.trans hhead.1⟩)
      exact ⟨g, (List.find?_cons_of_neg (by simpa using hother)).trans hfound, hg⟩

theorem names_of_suits {fields : List Field} {members : List (String × Json)}
    (hsuits : List.Forall₂ (fun f m => f.name = m.1 ∧ f.fault m.2 = none) fields members) :
    fields.map Field.name = members.map Prod.fst := by
  rw [← List.forall₂_eq_eq_eq, List.forall₂_map_left_iff, List.forall₂_map_right_iff]
  exact hsuits.imp fun _ _ h => h.1

theorem gather_cons {fields : List Field} {met : List (String × Json)} {name : String} {v : Json}
    {f : Field} (hfind : fields.find? (fun f => f.name = name) = some f)
    (hfault : f.fault v = none) (hmet : met.lookup name = none) (rest : List (Json × Json)) :
    gather fields met ((string name, v) :: rest) = gather fields ((name, v) :: met) rest := by
  have hname : takeName (string name) = .ok name := rfl
  rw [gather, hname]
  simp only [bind, Except.bind, hfind, hmet, hfault, stopWith, Option.isSome_none,
    Bool.false_eq_true, ↓reduceIte]

/-- Members that suit their fields are all gathered, beside those met before. -/
theorem gather_record {fields : List Field} {members : List (String × Json)}
    (hfound : ∀ m ∈ members,
      ∃ f, fields.find? (fun f => f.name = m.1) = some f ∧ f.fault m.2 = none)
    (hnodup : (members.map Prod.fst).Nodup) {met : List (String × Json)}
    (hmet : ∀ m ∈ members, met.lookup m.1 = none) :
    ∃ given, gather fields met (members.map fun m => (string m.1, m.2)) = .ok given ∧
      (∀ m ∈ members, given.lookup m.1 = some m.2) ∧
      ∀ name ∉ members.map Prod.fst, given.lookup name = met.lookup name := by
  induction members generalizing met with
  | nil => exact ⟨met, rfl, fun m hm => absurd hm List.not_mem_nil, fun _ _ => rfl⟩
  | cons m members ih =>
    rw [List.map_cons, List.nodup_cons] at hnodup
    obtain ⟨f, hfind, hfault⟩ := hfound m List.mem_cons_self
    have hnew : ∀ n ∈ members, ((m.1, m.2) :: met).lookup n.1 = none := by
      intro n hn
      have hne : n.1 ≠ m.1 := fun h => hnodup.1 (List.mem_map.mpr ⟨n, hn, h⟩)
      rw [List.lookup_cons, beq_false_of_ne hne]
      exact hmet n (List.mem_cons_of_mem m hn)
    obtain ⟨given, hgather, hgiven, hkept⟩ :=
      ih (fun n hn => hfound n (List.mem_cons_of_mem m hn)) hnodup.2 hnew
    refine ⟨given, ?_, ?_, ?_⟩
    · rw [List.map_cons, gather_cons hfind hfault (hmet m List.mem_cons_self)]
      exact hgather
    · intro n hn
      obtain rfl | hn := List.mem_cons.mp hn
      · rw [hkept n.1 hnodup.1, List.lookup_cons_self]
      · exact hgiven n hn
    · intro name hname
      rw [List.map_cons, List.mem_cons, not_or] at hname
      rw [hkept name hname.2, List.lookup_cons, beq_false_of_ne hname.1]

/-- A record that fits is taken as the value it stands for. -/
theorem take_record {s : Shape α} {members : List (String × Json)} {a : α}
    (h : s.Fits members a) (hnodup : (members.map Prod.fst).Nodup) :
    s.take (record members) = .ok a := by
  have hmet : ∀ m ∈ members, ([] : List (String × Json)).lookup m.1 = none := fun _ _ => rfl
  obtain ⟨given, hgather, hgiven, -⟩ :=
    gather_record (find?_of_suits h.suits hnodup) hnodup hmet
  have hcomplete : ¬ (s.fields.any fun f =>
      decide (f.absence = .refused) && (given.lookup f.name).isNone) = true := by
    rw [List.any_eq_true]
    rintro ⟨f, hf, hmissing⟩
    have hname : f.name ∈ members.map Prod.fst := by
      rw [← names_of_suits h.suits]
      exact List.mem_map_of_mem hf
    obtain ⟨m, hm, hname⟩ := List.mem_map.mp hname
    rw [← hname, hgiven m hm, Option.isNone_some, Bool.and_false] at hmissing
    cases hmissing
  rw [record, take, hgather]
  simp only [bind, Except.bind, stopWith, if_neg hcomplete]
  exact h.built _ hgiven

end Shape
end Json
end WarmFeed
