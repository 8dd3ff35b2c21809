import CellGraph.Bytes.Hex

/-!
# Tag bytes

The first byte of an encoding selects how the rest is read. Eight tags name the kinds of cell; one
marks an absent optional child, and one a child that is written as its digest.

* `Kind`, `Kind.tag`, `Kind.ofTag?`: the kinds of cell and their tags;
* `Tag.name`: the name of a tag in messages;
* `maxEmbedded`, `maxKeyword`: the two size limits of the format.
-/

namespace CellGraph

/-- The kinds of cell. -/
inductive Kind
  | integer
  | text
  | blob
  | keyword
  | vector
  | map
  | peer
  | address
  deriving DecidableEq, Repr

/-- A child whose encoding has at most this many bytes is written inline in its parent. -/
def maxEmbedded : Nat := 140

/-- The greatest number of bytes in a keyword's name. -/
def maxKeyword : Nat := 64

namespace Tag

/-- The tag of an absent optional child. -/
def absent : UInt8 := 0x00

/-- The tag of a child written as its digest. -/
def link : UInt8 := 0x20

end Tag

/-- The tag of a kind of cell. -/
def Kind.tag : Kind → UInt8
  | .integer => 0x10
  | .text => 0x30
  | .blob => 0x31
  | .keyword => 0x33
  | .vector => 0x80
  | .map => 0x82
  | .peer => 0xD1
  | .address => 0xEA

/-- The kind of cell that a tag selects. -/
def Kind.ofTag? (tag : UInt8) : Option Kind :=
  if tag = 0x10 then some .integer
  else if tag = 0x30 then some .text
  else if tag = 0x31 then some .blob
  else if tag = 0x33 then some .keyword
  else if tag = 0x80 then some .vector
  else if tag = 0x82 then some .map
  else if tag = 0xD1 then some .peer
  else if tag = 0xEA then some .address
  else none

/-- The name of a kind of cell in messages. -/
def Kind.name : Kind → String
  | .integer => "integer"
  | .text => "string"
  | .blob => "blob"
  | .keyword => "keyword"
  | .vector => "vector"
  | .map => "map"
  | .peer => "peer-status"
  | .address => "address"

/-- The name of any tag byte in messages. -/
def Tag.name (tag : UInt8) : String :=
  match Kind.ofTag? tag with
  | some kind => kind.name
  | none => if tag = absent then "null" else if tag = link then "ref" else "unknown"

@[simp] theorem Kind.ofTag?_tag (kind : Kind) : Kind.ofTag? kind.tag = some kind := by
  cases kind <;> rfl

theorem Kind.tag_of_ofTag? {tag : UInt8} {kind : Kind} (h : Kind.ofTag? tag = some kind) :
    tag = kind.tag := by
  unfold Kind.ofTag? at h
  repeat' split at h
  all_goals first | cases h; assumption | cases h

end CellGraph
