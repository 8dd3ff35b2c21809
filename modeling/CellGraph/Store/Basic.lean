import CellGraph.Cell.Decoding
import CellGraph.Index
import CellGraph.Store.Fault

/-!
# Stores

A store maps digests to cells and to how durable they are. A memory store holds the cells
themselves. A table holds encodings and numbers of statuses, and makes a new cell at every reading;
rows that were not written by this program may hold anything.

* `Row`, `Store`: the two kinds of store;
* `Site`, `StoreAction`: a store with what is known of the cells in use, and computations on both;
* `Store.status?`, `Store.count`, `Store.digests`: questions to a store;
* `StoreAction.put`, `StoreAction.get`, `StoreAction.lookup`: writing and reading an entry.
-/

namespace CellGraph

/-- A row of a table: an encoding and the number of a status. -/
structure Row where
  encoding : Bytes
  status : Int
  deriving DecidableEq, Repr

/-- A store. -/
inductive Store
  /-- Cells with their statuses. -/
  | memory (entries : Index Digest (Cell × Status))
  /-- Rows by key. -/
  | table (rows : Index Bytes Row)

namespace Store

/-- A memory store without entries. -/
def emptyMemory : Store := .memory []

/-- A table without rows. -/
def emptyTable : Store := .table []

/-- A table with rows of any origin. -/
def ofRows (rows : List (Bytes × Row)) : Store := .table (Index.ofList rows)

/-- The status of a number read from the row of this key. Numbers of statuses have one byte. -/
def parseStatus (key : Digest) (number : Int) : Except StoreFault Status :=
  if number < 0 ∨ 255 < number then .error (.statusOutOfRange number)
  else
    match Status.ofNat? number.toNat with
    | some status => .ok status
    | none => .error (.corrupt key (.unknownStatus number.toNat))

/-- The status of an entry. -/
def status? (store : Store) (key : Digest) : Except StoreFault (Option Status) :=
  match store with
  | memory entries => .ok ((Index.find? key entries).map Prod.snd)
  | table rows =>
    match Index.find? key.bytes rows with
    | some row => (parseStatus key row.status).map some
    | none => .ok none

/-- The number of entries. -/
def count : Store → Nat
  | memory entries => entries.length
  | table rows => rows.length

/-- The keys of a store as digests, in ascending order. -/
def digests : Store → Except StoreFault (List Digest)
  | memory entries => .ok (entries.map Prod.fst)
  | table rows =>
    rows.mapM fun row =>
      match Digest.ofBytes? row.1 with
      | some digest => .ok digest
      | none => .error .keyNotDigest

/--
Write a cell with this digest and encoding: the status of its entry before, and the store after it.
A status is only ever raised; a row whose number is not that of a status stays as it is.
-/
def insert (store : Store) (cell : Cell) (encoding : Bytes) (key : Digest) (status : Status) :
    Except StoreFault (Option Status) × Store :=
  match store with
  | memory entries =>
    match Index.find? key entries with
    | some (_, previous) =>
      (.ok (some previous),
        .memory (Index.update key (fun entry => (entry.1, previous.max status)) entries))
    | none => (.ok none, .memory (Index.insert key (cell, status) entries))
  | table rows =>
    match Index.find? key.bytes rows with
    | some row =>
      match parseStatus key row.status with
      | .ok previous =>
        (.ok (some previous),
          .table (Index.update key.bytes
            (fun row => { row with status := (previous.max status).toNat }) rows))
      | .error fault => (.error fault, store)
    | none => (.ok none, .table (Index.insert key.bytes ⟨encoding, status.toNat⟩ rows))

end Store

/-! ### Computations on a store -/

/-- A store with what is known of the cells in use, and what computations have done to it. -/
structure Site where
  known : Knowledge
  store : Store
  /-- The digests of the cells that reached a walk's status for the first time, in order. -/
  novel : List Digest := []
  /-- The store after each write, the latest first: an interruption leaves one of these behind. -/
  journal : List Store := []

/-- Computations on a site. What they did before they failed stays done. -/
abbrev StoreAction := ExceptT StoreFault (StateM Site)

namespace StoreAction

variable {α : Type}

/-- A computation that adds to what is known. -/
def ofCalc (step : Calc α) : StoreAction α := fun site =>
  let (a, known) := step.run site.known
  (.ok a, { site with known })

/-- A computation on cells that may fail. -/
def ofAttempt (attempt : Attempt α) : StoreAction α := fun site =>
  let (outcome, known) := attempt.run.run site.known
  (outcome.mapError .cell, { site with known })

/-- The status of an entry. -/
def status? (key : Digest) : StoreAction (Option Status) := do
  match (← getThe Site).store.status? key with
  | .ok status => return status
  | .error fault => throw fault

/-- Write a cell with this digest and encoding; gives the status that its entry had before. -/
def write (cell : Cell) (encoding : Bytes) (key : Digest) (status : Status) :
    StoreAction (Option Status) := do
  ofCalc cell.noteDigest
  let (previous, store) := (← getThe Site).store.insert cell encoding key status
  modify fun site => { site with store, journal := store :: site.journal }
  match previous with
  | .ok status => return status
  | .error fault => throw fault

/-- Write a cell with at least this status; gives the status that its entry had before. -/
def put (cell : Cell) (status : Status) : StoreAction (Option Status) :=
  let encoding := cell.encode
  write cell encoding (Digest.of encoding) status

/-- The cell of an entry. A memory store gives the cell that was first written. -/
def get (key : Digest) : StoreAction (Option Cell) := do
  match (← getThe Site).store with
  | .memory entries => return (Index.find? key entries).map Prod.fst
  | .table rows =>
    match Index.find? key.bytes rows with
    | none => return none
    | some row =>
      match ← ofCalc (Cell.decode row.encoding).run with
      | .ok cell => return some cell
      | .error fault => throw (.corrupt key (.undecodable fault))

/-- The cell of an entry, which must have the entry's key as its digest. -/
def lookup (key : Digest) : StoreAction (Option Cell) := do
  match ← get key with
  | none => return none
  | some cell =>
    let actual ← ofCalc cell.hash
    if actual = key then return some cell
    else throw (.corrupt key (.wrongContent actual))

end StoreAction

end CellGraph
