/-!
# Durability

How durable the target of a link, or an entry of a store, is known to be. A status only ever rises.

* `Status`, `Status.toNat`, `Status.ofNat?`: the five levels and their numbers;
* `Status.max`: the more durable of two levels.
-/

namespace CellGraph

/-- A level of durability. -/
inductive Status
  /-- Nothing is known beyond the link itself. -/
  | unknown
  /-- The target's digest has been checked against its content. -/
  | verified
  /-- The target is present in a store. -/
  | stored
  /-- The target has been written durably. -/
  | persisted
  /-- The target has been shared with others. -/
  | announced
  deriving DecidableEq, Repr, Inhabited

namespace Status

/-- The number of a level. -/
def toNat : Status → Nat
  | unknown => 0
  | verified => 1
  | stored => 2
  | persisted => 3
  | announced => 4

/-- The level of a number. -/
def ofNat? : Nat → Option Status
  | 0 => some unknown
  | 1 => some verified
  | 2 => some stored
  | 3 => some persisted
  | 4 => some announced
  | _ => none

/-- The name of a level. -/
def name : Status → String
  | unknown => "Unknown"
  | verified => "Verified"
  | stored => "Stored"
  | persisted => "Persisted"
  | announced => "Announced"

/-- The level of a name. -/
def ofName? (name : String) : Option Status :=
  [unknown, verified, stored, persisted, announced].find? (fun s => s.name = name)

instance : LE Status := ⟨fun a b => a.toNat ≤ b.toNat⟩

instance : DecidableLE Status := fun a b => inferInstanceAs (Decidable (a.toNat ≤ b.toNat))

instance : LT Status := ⟨fun a b => a.toNat < b.toNat⟩

instance : DecidableLT Status := fun a b => inferInstanceAs (Decidable (a.toNat < b.toNat))

/-- The more durable of two levels. -/
def max (a b : Status) : Status := if a ≤ b then b else a

@[simp] theorem ofNat?_toNat (s : Status) : ofNat? s.toNat = some s := by cases s <;> rfl

end Status

end CellGraph
