import WarmFeed.Call

/-!
# Hydration

Identifiers become statuses.  The object store is asked once, for every
identifier once, and may answer in any order; the statuses are put back into the
order of the identifiers, and identifiers without a status are left out.
-/

namespace WarmFeed
namespace Hydration

/-- Each identifier once, where it stands first. -/
def distinct (ids : List ContentId) : List ContentId :=
  ids.foldl (fun seen id => if id ∈ seen then seen else seen ++ [id]) []

/-- The statuses of the identifiers, in their order.  Of several statuses with one
identifier the last is taken. -/
def arrange (ids : List ContentId) (fetched : List Status) : List Status :=
  let table : Table ContentId Status := Table.ofList (fetched.map fun s => (s.id, s))
  ids.filterMap table.get?

def hydrate (ids : List ContentId) : Attempt ServiceError (List Status) := do
  if ids.isEmpty then return []
  let ids := distinct ids
  let fetched ← ExceptT.mk (Routine.request (Call.bulkFetch ids))
  let statuses := arrange ids fetched
  let missing := ids.length - statuses.length
  if 0 < missing then countMetric .misses missing
  return statuses

end Hydration
end WarmFeed
