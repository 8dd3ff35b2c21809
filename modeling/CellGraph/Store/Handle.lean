import CellGraph.Settings
import CellGraph.Store.Walk

/-!
# Handles

A handle is a store with a policy for using it. Code that cannot be given a store finds the current
one, which is set for the time of a computation.

* `HandleAction.ofStore`: a computation on a store, as a user of a handle sees it;
* `Settings.lookup`: looking up a cell under a policy;
* `supportedVersion`, `newestVersion`, `openTable`: the versions that a table records;
* `Scope`: the current store, and computations under it.
-/

namespace CellGraph

/-- Computations on the store of a handle. -/
abbrev HandleAction := ExceptT HandleFault (StateM Site)

/-- A computation on a store, as a user of a handle sees it. -/
def HandleAction.ofStore {α : Type} (action : StoreAction α) : HandleAction α := fun site =>
  let (outcome, site) := action site
  (outcome.mapError .store, site)

/-- Look up a cell by digest. -/
def Settings.lookup (settings : Settings) (key : Digest) : StoreAction (Option Cell) := do
  let found ← if settings.verifyDigests then StoreAction.lookup key else StoreAction.get key
  if settings.validateOnLookup then
    if let some cell := found then
      discard (StoreAction.checkComplete cell)
  return found

/-! ### Versions of tables -/

/-- The version of tables that this program writes. -/
def supportedVersion : Nat := 1

/--
The newest of the versions that a table records. Versions are 32-bit numbers; if the newest is
larger, it is as if there were none.
-/
def newestVersion (recorded : List Int) : Nat :=
  let newest := recorded.foldl (fun newest n => if newest ≤ n then n else newest) 0
  if newest < 0x100000000 then newest.toNat else 0

/--
Open a table in which versions have been recorded. A newer version than supported is refused. With
an older one the table has to be created, which fails if that was done before.
-/
def openTable (recorded : List Int) (rows : List (Bytes × Row)) : Except StoreFault Store :=
  let newest := newestVersion recorded
  if supportedVersion < newest then .error (.newerVersion newest supportedVersion)
  else if newest < supportedVersion ∧ (supportedVersion : Int) ∈ recorded then .error .tableExists
  else .ok (Store.ofRows rows)

/-! ### The current store -/

/-- Computations that can see which store is current, if one has been set. -/
abbrev Scope (σ : Type) := StateM (Option σ)

namespace Scope

variable {σ α : Type}

/-- The current store. -/
def current : Scope σ (Option σ) := get

/-- Run a computation with `store` as the current one; the previous one is put back afterwards. -/
def within (store : σ) (body : Scope σ α) : Scope σ α := do
  let previous ← get
  set (some store)
  let result ← body
  set previous
  return result

/--
What is current while scopes are opened one inside the other, and while they are closed again.
-/
def trail : List σ → Scope σ (List (Option σ))
  | [] => return [← current]
  | store :: rest => do
    let before ← current
    let inside ← within store (trail rest)
    return before :: inside ++ [← current]

end Scope

end CellGraph
