import CellGraph.Stake.Holdings

/-!
# Cells as text

Two renderings of a cell and of all that is held in memory below it. The display form is meant for
people: it shows texts as they are and names what is not held by sixteen digits. The outline shows
the structure without ambiguity: which children are held by direct links, and which by soft links,
with their digests.

* `Rendering`: the decisions of a rendering;
* `Rendering.display`, `Rendering.outline`: the two renderings;
* `Knowledge.display`, `Knowledge.outline`, `Knowledge.describe`: texts of cells and links.
-/

namespace CellGraph

/-- How a value and a soft link are rendered, links being rendered already. -/
structure Rendering where
  /-- The text of a value. -/
  value : Value String → String
  /-- The text of a soft link, with the text of the cell that it holds. -/
  soft : Digest → Option String → String

/-- The texts of entries: key and value joined by `inner`, entries by `outer`. -/
def joinEntries (inner outer : String) (entries : List (String × String)) : String :=
  String.intercalate outer (entries.map fun entry => entry.1 ++ inner ++ entry.2)

namespace Rendering

/-- The form for people. -/
def display : Rendering where
  value
    | .integer n => toString n.toInt
    | .address a => a.text
    | .text s => s
    | .blob bytes => "0x" ++ Hex.encode bytes
    | .keyword name => ":" ++ name
    | .vector items => "[" ++ String.intercalate " " items ++ "]"
    | .map entries => "\x7b" ++ joinEntries " " ", " entries ++ "\x7d"
    | .peer record =>
      "#PeerStatus\x7b:controller " ++ record.controller.text ++ ", :stake " ++
        toString record.totalShares.toInt ++ ", :balance " ++ toString record.balance.toInt ++ "\x7d"
  soft
    | _, some target => target
    | digest, none => "#ref[" ++ digest.short ++ "]"

/-- The form that shows the structure. -/
def outline : Rendering where
  value
    | .integer n => "i" ++ toString n.toInt
    | .address a => "a" ++ toString a.number
    | .text s => "s" ++ Hex.encode (Bytes.ofText s)
    | .blob bytes => "b" ++ Hex.encode bytes
    | .keyword name => "k" ++ Hex.encode (Bytes.ofText name)
    | .vector items => "v(" ++ String.intercalate "," items ++ ")"
    | .map entries => "m(" ++ joinEntries "=" "," entries ++ ")"
    | .peer record =>
      "p(" ++ String.intercalate ";"
        [toString record.controller.number, toString record.peerShares.toInt,
          record.stakes.getD "-", toString record.delegatedShares.toInt, record.metadata.getD "-",
          toString record.timestamp.toInt, toString record.balance.toInt] ++ ")"
  soft
    | digest, some target => "#" ++ digest.hex ++ ":" ++ target
    | digest, none => "#" ++ digest.hex

/-- Render a cell; `held` renders what a soft link holds, if it holds anything. -/
def cell (style : Rendering) (held : Label → Option String) : Cell → String :=
  Cell.fold (fun _ value => style.value value) (fun _ _ target => target)
    (fun label digest => style.soft digest (held label))

/-- Render a cell, following at most `depth` soft links in a row. -/
def cellWithin (style : Rendering) (known : Knowledge) : Nat → Cell → String
  | 0 => style.cell fun _ => none
  | depth + 1 => style.cell fun label => known.kept[label]?.map (style.cellWithin known depth)

end Rendering

namespace Knowledge

/--
Render a cell. No more soft links can be followed in a row than there are links that hold a cell.
-/
def render (known : Knowledge) (style : Rendering) (cell : Cell) : String :=
  style.cellWithin known known.kept.size cell

/-- The text of a cell for people. -/
def display (known : Knowledge) (cell : Cell) : String := known.render .display cell

/-- The structure of a cell. -/
def outline (known : Knowledge) (cell : Cell) : String := known.render .outline cell

/-- A link, what it leads to, and its status. -/
def describe (known : Knowledge) (link : Link) : String :=
  let target :=
    match known.resident link with
    | some cell => "Cell(" ++ known.display cell ++ ")"
    | none => "soft " ++ link.digest.short
  "Ref(" ++ target ++ ", " ++ (known.status link).name ++ ")"

/-- An optional link, what it leads to, and its status. -/
def describeOption (known : Knowledge) : Option Link → String
  | some link => "Some(" ++ known.describe link ++ ")"
  | none => "None"

/-- The fields of a stake record by name. -/
def describeRecord (known : Knowledge) (record : StakeRecord Link) : String :=
  let fields :=
    [("controller", record.controller.text),
      ("peer_stake", toString record.peerShares.toInt),
      ("stakes", known.describeOption record.stakes),
      ("delegated_stake", toString record.delegatedShares.toInt),
      ("metadata", known.describeOption record.metadata),
      ("timestamp", toString record.timestamp.toInt),
      ("balance", toString record.balance.toInt)]
  "PeerStatus \x7b " ++ joinEntries ": " ", " fields ++ " \x7d"

end Knowledge

end CellGraph
