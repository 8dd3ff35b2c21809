/-!
# Settings

How a handle uses its store, and which store it opens.

* `Backend`: a store in memory, or a database file;
* `Settings`: the policy of a handle, with its defaults.
-/

namespace CellGraph

/-- Which store to open. -/
inductive Backend
  | memory
  | file (path : String)
  deriving DecidableEq, Repr

/-- The policy of a handle. -/
structure Settings where
  /-- Whether a lookup also checks that everything below the cell can be had. -/
  validateOnLookup : Bool := false
  /-- Whether a lookup compares the digest of the cell with the key. -/
  verifyDigests : Bool := true
  backend : Backend := .memory
  deriving DecidableEq, Repr

end CellGraph
