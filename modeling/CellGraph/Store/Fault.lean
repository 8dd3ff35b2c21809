import CellGraph.Fault

/-!
# Faults of stores and handles

* `CorruptReason`, `StoreFault`: what can go wrong in a store;
* `HandleFault`: what can go wrong for a user of a handle;
* `StoreFault.message`, `HandleFault.message`: the texts.
-/

namespace CellGraph

/-- Why a stored entry cannot be used. -/
inductive CorruptReason
  /-- The encoding is not that of a cell. -/
  | undecodable (fault : Fault)
  /-- The status has no such number. -/
  | unknownStatus (number : Nat)
  /-- The cell has another digest than the entry's key. -/
  | wrongContent (actual : Digest)
  /-- A cause that a caller gives in its own words. -/
  | reported (reason : String)
  deriving DecidableEq, Repr

/-- What went wrong in a store. -/
inductive StoreFault
  /-- A cell could not be made, read or found. -/
  | cell (fault : Fault)
  /-- An entry cannot be used. -/
  | corrupt (key : Digest) (reason : CorruptReason)
  /-- A table holds a key that is no digest. -/
  | keyNotDigest
  /-- A table holds a number that is too small or too large for a status. -/
  | statusOutOfRange (number : Int)
  /-- A table that is to be created is there already. -/
  | tableExists
  /-- A table was written by a newer version. -/
  | newerVersion (found supported : Nat)
  /-- Soft links lead round in a circle. -/
  | endlessLinks
  /-- Failures that a caller reports in its own words. -/
  | migration (reason : String)
  | lockPoisoned (reason : String)
  deriving DecidableEq, Repr

/-- What went wrong for a user of a handle. -/
inductive HandleFault
  | cell (fault : Fault)
  | store (fault : StoreFault)
  | settings (reason : String)
  deriving DecidableEq, Repr

/-- The words of a reason. -/
def CorruptReason.message : CorruptReason → String
  | undecodable fault => fault.message
  | unknownStatus number => "unknown status " ++ toString number
  | wrongContent actual => "content hashes to " ++ actual.short
  | reported reason => reason

/-- The commands that create a table, as they are quoted in messages. -/
def tableCommands : String :=
  String.intercalate "\n"
    ["",
      "        -- Cells table: one row per stored cell",
      "        CREATE TABLE cells (",
      "            hash BLOB PRIMARY KEY,            -- 32 bytes, Blake3 hash of encoding",
      "            encoding BLOB NOT NULL,           -- canonical encoding",
      "            status INTEGER NOT NULL,          -- RefStatus as u8, only ever raised",
      "            stored_at INTEGER NOT NULL        -- local timestamp of first store",
      "        );",
      "",
      "        CREATE INDEX idx_cells_status ON cells(status);",
      "        "]

namespace StoreFault

/-- The text of a fault. -/
def message : StoreFault → String
  | cell fault => fault.message
  | corrupt key reason => "corrupt entry " ++ key.short ++ ": " ++ reason.message
  | keyNotDigest => "database error: Invalid column type Blob at index: 0, name: hash"
  | statusOutOfRange number =>
    "database error: Integer " ++ toString number ++ " out of range at index 0"
  | tableExists =>
    "database error: table cells already exists in " ++ tableCommands ++ " at offset 70"
  | newerVersion found supported =>
    "migration error: database schema version " ++ toString found ++
      " is newer than supported version " ++ toString supported
  | endlessLinks => "links lead round in a circle"
  | migration reason => "migration error: " ++ reason
  | lockPoisoned reason => "store lock poisoned: " ++ reason

/-- The digest of the cell that is missing, if that is what went wrong. -/
def missing? : StoreFault → Option Digest
  | cell (.missingData digest) => some digest
  | _ => none

/-- Whether a cell is missing. -/
def isMissingData (fault : StoreFault) : Bool := fault.missing?.isSome

end StoreFault

namespace HandleFault

/-- The text of a fault. -/
def message : HandleFault → String
  | cell fault => "cell error: " ++ fault.message
  | store fault => "storage error: " ++ fault.message
  | settings reason => "invalid configuration: " ++ reason

/-- Whether a cell is missing. -/
def isMissingData : HandleFault → Bool
  | cell fault => fault.isMissingData
  | store fault => fault.isMissingData
  | settings _ => false

end HandleFault

end CellGraph
