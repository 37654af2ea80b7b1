import WarmFeed.Content.Snowflake
import WarmFeed.Proofs.Timestamp

/-!
# Identifiers and time

The sequence number takes sixteen bits of an identifier and leaves forty-eight for the
milliseconds.  Bits beyond them are lost, so identifiers follow the time for one span of
milliseconds and then begin again.  The first span ends in August of the year 10889, and dates
are read far beyond it.
-/

namespace WarmFeed
namespace Snowflake

/-- How many milliseconds identifiers tell apart. -/
def span : Nat := 2 ^ (64 - sequenceBits)

section Order

variable (t u : Timestamp) (s s' : UInt64)

theorem toNat_id : (id t s).toNat =
    t.millis.toNat % span * 2 ^ sequenceBits + s.toNat % 2 ^ sequenceBits := by
  have hword : (id t s).toNat = (t.millis.toNat * 65536 + s.toNat % 65536) % 2 ^ 64 :=
    UInt64.toNat_ofNat'
  rw [hword]
  show _ = _ % 2 ^ 48 * 65536 + _ % 65536
  omega

/-- Identifiers are told apart by the low bits of the sequence number and by the millisecond,
as far as there is room for it. -/
theorem id_eq_iff : id t s = id u s' ↔
    s.toNat % 2 ^ sequenceBits = s'.toNat % 2 ^ sequenceBits ∧
      t.millis.toNat % span = u.millis.toNat % span := by
  rw [← UInt64.toNat_inj, toNat_id, toNat_id]
  show _ * 65536 + _ % 65536 = _ * 65536 + _ % 65536 ↔ _ % 65536 = _ % 65536 ∧ _
  omega

theorem id_lt_iff : id t s < id u s' ↔
    t.millis.toNat % span < u.millis.toNat % span ∨
      t.millis.toNat % span = u.millis.toNat % span ∧
        s.toNat % 2 ^ sequenceBits < s'.toNat % 2 ^ sequenceBits := by
  rw [UInt64.lt_iff_toNat_lt, toNat_id, toNat_id]
  show _ * 65536 + _ % 65536 < _ * 65536 + _ % 65536 ↔ _ ∨ _ ∧ _ % 65536 < _ % 65536
  omega

/-- Whatever the sequence numbers are, only the milliseconds within their spans can be relied on. -/
theorem forall_id_lt_iff :
    (∀ s s', id t s < id u s') ↔ t.millis.toNat % span < u.millis.toNat % span := by
  constructor
  · intro h
    obtain hlt | ⟨-, hsequence⟩ := (id_lt_iff t u (-1) 0).mp (h (-1) 0)
    · exact hlt
    · exact absurd hsequence (Nat.not_lt_zero _)
  · intro h s s'
    exact (id_lt_iff t u s s').mpr (.inl h)

end Order

/-- The first moment that has no room in an identifier. -/
def spanEnd : Timestamp := ⟨⟨10889, 8, 2⟩, 19910, 656000000, by decide⟩

theorem millis_spanEnd : spanEnd.millis = span := by decide

/-- From 1970 on, all identifiers follow the time up to the end of the first span and no further. -/
theorem follow_up_to_iff (bound : Int) :
    (∀ t u : Timestamp, 0 ≤ t.millis → t.millis < u.millis → u.millis < bound →
      ∀ s s', id t s < id u s') ↔ bound ≤ span := by
  constructor
  · -- At the end of the span the milliseconds begin again.
    intro h
    by_contra hbound
    have hinside : spanEnd.millis < bound := by
      rw [millis_spanEnd]
      omega
    exact absurd (h .epoch spanEnd (by decide) (by decide) hinside 0 0) (by decide)
  · intro h t u ht htu hu
    rw [forall_id_lt_iff, Nat.mod_eq_of_lt (by omega), Nat.mod_eq_of_lt (by omega)]
    omega

/-- Identifiers follow the time exactly if the milliseconds do so within their spans, and are equal
exactly if those and the low bits of the sequence numbers are.  So they follow it up to any bound
within the first span, and up to no other. -/
theorem ids_follow_time_iff {t u : Timestamp} (ht : 0 ≤ t.millis) (hu : 0 ≤ u.millis)
    (bound : Int) :
    ((∀ s s', id t s < id u s') ↔ t.millis % span < u.millis % span) ∧
      (∀ s s', id t s = id u s' ↔ t.millis % span = u.millis % span ∧
        s.toNat % 2 ^ 16 = s'.toNat % 2 ^ 16) ∧
      ((∀ a b : Timestamp, 0 ≤ a.millis → a.millis < b.millis → b.millis < bound →
        ∀ s s', id a s < id b s') ↔ bound ≤ span) := by
  have hspan : span = 281474976710656 := rfl
  refine ⟨?_, fun s s' => ?_, follow_up_to_iff bound⟩
  · rw [forall_id_lt_iff, hspan]
    omega
  · rw [id_eq_iff, and_comm, hspan]
    show _ ∧ _ % 65536 = _ % 65536 ↔ _ ∧ _ % 65536 = _ % 65536
    omega

theorem ids_follow_time_iff_second :
    let t : Timestamp := ⟨⟨2023, 5, 9⟩, 0, 0, by decide⟩
    let u : Timestamp := ⟨⟨2023, 5, 9⟩, 1, 0, by decide⟩
    id t 65535 < id u 0 := by
  intro t u
  have hlt := (ids_follow_time_iff (show 0 ≤ t.millis by decide) (show 0 ≤ u.millis by decide) 0).1
  exact hlt.mpr (by decide) 65535 0

/-- A date after the first span is read, and its status gets the identifier of one from the first
moment of 1970. -/
theorem id_begins_again :
    ∃ t u : Timestamp, Timestamp.parse? "1970-01-01T00:00:00Z".toList = some t ∧
      Timestamp.parse? "+10889-08-02T05:31:50.656Z".toList = some u ∧
      0 ≤ t.millis ∧ t.millis < u.millis ∧ ¬ id t 0 < id u 0 ∧ id t 0 = id u 0 :=
  ⟨.epoch, spanEnd, by decide +kernel, by decide +kernel, by decide, by decide, by decide,
    by decide⟩

end Snowflake
end WarmFeed
