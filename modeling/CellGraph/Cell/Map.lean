import CellGraph.Index
import CellGraph.Knowledge

/-!
# Map cells

A map binds cells to cells. Keys are found by digest, so a map can be searched and changed also when
its keys and values are not held in memory.

* `Entry.index`: the entries of a map as an index by digest, with `Entry.find?_index`,
  `Entry.index_insert` and `Entry.index_erase`;
* `Cell.makeMap`: a map of bindings in any order;
* `Cell.size`, `Cell.find?`, `Cell.findDigest?`, `Cell.toPairs`: questions to a map;
* `Cell.insert`, `Cell.erase`: a map with a key bound or removed.
-/

namespace CellGraph

/-- A binding: a link to the key and a link to its value. -/
abbrev Entry := Link × Link

/-- The entries of a map by the digests of their keys. -/
def Entry.index (entries : List Entry) : Index Digest Entry :=
  entries.map fun entry => (entry.1.digest, entry)

/-- The entries of an index. -/
def Entry.ofIndex (index : Index Digest Entry) : List Entry := index.map Prod.snd

namespace Entry

/-- The entry of the key of this digest. -/
def find? (digest : Digest) (entries : List Entry) : Option Entry :=
  entries.find? fun entry => entry.1.digest = digest

/-- The entries without that of the key of this digest. -/
def erase (digest : Digest) (entries : List Entry) : List Entry :=
  entries.eraseP fun entry => entry.1.digest = digest

/-- The entries with one for the key of this digest. -/
def insert (digest : Digest) (entry : Entry) : List Entry → List Entry
  | [] => [entry]
  | first :: rest =>
    let other := first.1.digest
    if digest < other then entry :: first :: rest
    else if digest = other then entry :: rest
    else first :: insert digest entry rest

/-- Finding an entry is finding it in the index. -/
theorem find?_index (digest : Digest) (entries : List Entry) :
    (index entries).find? digest = find? digest entries := by
  induction entries with
  | nil => rfl
  | cons entry rest ih =>
    by_cases h : entry.1.digest = digest
    · simp [index, find?, Index.find?, h]
    · simpa [index, find?, Index.find?, h] using ih

/-- Erasing an entry is erasing it from the index. -/
theorem index_erase (digest : Digest) (entries : List Entry) :
    index (erase digest entries) = (index entries).erase digest := by
  induction entries with
  | nil => rfl
  | cons entry rest ih =>
    by_cases h : entry.1.digest = digest
    · simp [index, erase, Index.erase, h]
    · simpa [index, erase, Index.erase, h] using ih

/-- Inserting an entry is inserting it into the index. -/
theorem index_insert (entry : Entry) (entries : List Entry) :
    index (insert entry.1.digest entry entries) =
      (index entries).insert entry.1.digest entry := by
  induction entries with
  | nil => rfl
  | cons first rest ih =>
    by_cases below : entry.1.digest < first.1.digest
    · simp [index, insert, Index.insert, below]
    · by_cases same : entry.1.digest = first.1.digest
      · simp only [index, insert, Index.insert, List.map_cons, if_neg below, if_pos same,
          if_pos (beq_iff_eq.2 same)]
      · simpa [index, insert, Index.insert, below, same] using ih

end Entry

namespace Cell

/-- The entries of a map cell. -/
def entries? (cell : Cell) : Except Fault (List Entry) :=
  match cell.value with
  | .map entries => .ok entries
  | _ => .error (.invalidArgument (.expectedMap cell.value.kind))

/-- Make an entry of two cells. -/
def makeEntry (key value : Cell) : Calc Entry := do
  key.noteDigest
  let keyLink ← key.link
  return (keyLink, ← value.link)

/-- Make a map of bindings. The last binding of a key counts. -/
def makeMap (bindings : List (Cell × Cell)) : Calc Cell := do
  let entries ← bindings.mapM fun binding => makeEntry binding.1 binding.2
  Cell.make (.map (Entry.ofIndex (Index.ofList (Entry.index entries))))

/-- The number of bindings of a map. -/
def size (map : Cell) : Except Fault Nat := return (← map.entries?).length

/-- The value bound to the key of this digest. It must be held in memory. -/
def findDigest? (map : Cell) (digest : Digest) : Attempt (Option Cell) := do
  let entries ← map.entries?
  entries.forM fun entry => entry.1.noteDigest
  match Entry.find? digest entries with
  | some entry => return some (← entry.2.load)
  | none => return none

/-- The value bound to a key. It must be held in memory. -/
def find? (map key : Cell) : Attempt (Option Cell) := do
  discard map.entries?
  map.findDigest? (← key.hash)

/-- The bindings of a map, which must all be held in memory. -/
def toPairs (map : Cell) : Attempt (List (Cell × Cell)) := do
  (← map.entries?).mapM fun entry => do
    let key ← entry.1.load
    return (key, ← entry.2.load)

/-- The map with a key bound to a value. -/
def insert (map key value : Cell) : Attempt Cell := do
  let entries ← map.entries?
  let entry ← makeEntry key value
  entries.forM fun entry => entry.1.noteDigest
  Cell.make (.map (Entry.insert entry.1.digest entry entries))

/-- The map without a key; the map itself if the key is not bound. -/
def erase (map key : Cell) : Attempt Cell := do
  let entries ← map.entries?
  let digest ← key.hash
  entries.forM fun entry => entry.1.noteDigest
  match Entry.find? digest entries with
  | some _ => Cell.make (.map (Entry.erase digest entries))
  | none => return map

end Cell

end CellGraph
