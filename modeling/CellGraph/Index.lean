/-!
# Sorted association lists

An index is a list of keys with values in ascending order of the keys. The maps of the format and
the tables of stores are kept this way.

* `Index.find?`: looking up a key, through which the other operations are described;
* `Index.insert`, `Index.erase`, `Index.update`: binding and removing a key, and changing its value;
* `Index.ofList`: an index of bindings in any order, the last one of each key counting.
-/

namespace CellGraph

/-- Keys with values, in ascending order of the keys. -/
abbrev Index (κ α : Type) := List (κ × α)

namespace Index

variable {κ α : Type} [BEq κ]

/-- The value of a key. -/
def find? (key : κ) : Index κ α → Option α
  | [] => none
  | (k, a) :: rest => if k == key then some a else find? key rest

/-- Remove a key. -/
def erase (key : κ) : Index κ α → Index κ α
  | [] => []
  | (k, a) :: rest => if k == key then rest else (k, a) :: erase key rest

/-- Change the value of a key, if it has one. -/
def update (key : κ) (f : α → α) : Index κ α → Index κ α
  | [] => []
  | (k, a) :: rest => if k == key then (k, f a) :: rest else (k, a) :: update key f rest

theorem find?_erase_of_ne [LawfulBEq κ] {key k : κ} (h : key ≠ k) (index : Index κ α) :
    (index.erase key).find? k = index.find? k := by
  induction index with
  | nil => rfl
  | cons entry rest ih => grind [erase, find?]

theorem find?_update [LawfulBEq κ] (key k : κ) (f : α → α) (index : Index κ α) :
    (index.update key f).find? k = if key == k then (index.find? k).map f else index.find? k := by
  induction index with
  | nil => simp [update, find?]
  | cons entry rest ih => grind [update, find?]

variable [LT κ] [DecidableLT κ]

/-- Bind a key to a value. -/
def insert (key : κ) (value : α) : Index κ α → Index κ α
  | [] => [(key, value)]
  | (k, a) :: rest =>
    if key < k then (key, value) :: (k, a) :: rest
    else if key == k then (key, value) :: rest
    else (k, a) :: insert key value rest

/-- The index of a list of bindings. The last binding of a key counts. -/
def ofList (bindings : List (κ × α)) : Index κ α :=
  bindings.foldl (fun index binding => index.insert binding.1 binding.2) []

theorem find?_insert [LawfulBEq κ] (key k : κ) (value : α) (index : Index κ α) :
    (index.insert key value).find? k = if key == k then some value else index.find? k := by
  induction index with
  | nil => rfl
  | cons entry rest ih => grind [insert, find?]

end Index

end CellGraph
