import CellGraph.Link.Resolution
import CellGraph.Store.Basic

/-!
# Making a graph durable

A walk brings a cell and everything it refers to up to a status in a store. Children are written
before their parents, so that a written parent never lacks a child. A cell is written on its own if
it is the top of the walk or too large to be inline in its parents. What has the status already, by
its link or by its entry, is not walked again.

* `StoreAction.resolve`: the target of a link, from memory or from the store;
* `Link.walkDirect`, `Link.walkSoft`: one link of a walk, given how to walk its target's children;
* `Cell.walkChildren`: the children of a cell;
* `StoreAction.walk`, `StoreAction.make`: walks from a link and from a cell.
-/

namespace CellGraph

namespace StoreAction

/-- The target of a link, from the store if it is not held in memory. -/
def resolve (link : Link) : StoreAction Cell := do
  match (← getThe Site).known.resident link with
  | some cell => return cell
  | none =>
    let found ← StoreAction.get link.digest
    ofAttempt (link.accept found)

/-- The status of a link. -/
def linkStatus (link : Link) : StoreAction Status := return (← getThe Site).known.status link

/-- Raise the status of a link. -/
def advance (link : Link) (status : Status) : StoreAction Unit :=
  modify fun site => { site with known := site.known.advance link status }

/-- Report a digest as new. -/
def report (digest : Digest) : StoreAction Unit :=
  modify fun site => { site with novel := site.novel ++ [digest] }

/-- Give a link the status of its target's entry if that is at least `goal`; says whether it did. -/
def adopt (link : Link) (digest : Digest) (goal : Status) : StoreAction Bool := do
  match ← status? digest with
  | some status =>
    if goal ≤ status then
      advance link status
      return true
    else return false
  | none => return false

/-- How many soft links can be followed in a row before one is met twice. -/
def hopLimit (site : Site) : Nat := site.store.count + site.known.kept.size + 1

end StoreAction

namespace Link

open StoreAction

/-- Write a link's target, whose children have been dealt with, and raise the link's status. -/
def finish (goal : Status) (link : Link) (target : Cell) (encoding : Bytes) (key : Digest)
    (alone : Bool) : StoreAction Unit := do
  if alone then
    let previous ← write target encoding key goal
    if previous.all (· < goal) then report key
  advance link goal

/--
Walk a link whose target is held, or has been fetched, and has this encoding; `children` walks the
target's children.
-/
def walkTarget (goal : Status) (top : Bool) (link : Link) (target : Cell) (encoding : Bytes)
    (children : StoreAction Unit) : StoreAction Unit := do
  let key := Digest.of encoding
  ofCalc target.noteWritten
  let alone := top || maxEmbedded < encoding.length
  let done ← if alone then adopt link key goal else pure false
  unless done do
    children
    finish goal link target encoding key alone

/-- Walk a direct link. -/
def walkDirect (goal : Status) (top : Bool) (link : Link) (target : Cell) (encoding : Bytes)
    (children : StoreAction Unit) : StoreAction Unit := do
  unless goal ≤ (← linkStatus link) do
    ofCalc target.noteDigest
    walkTarget goal top link target encoding children

/-- Walk a soft link; `children` walks the children of the cell that it leads to. -/
def walkSoft (goal : Status) (top : Bool) (link : Link) (children : Cell → StoreAction Unit) :
    StoreAction Unit := do
  unless goal ≤ (← linkStatus link) do
    match (← getThe Site).known.resident link with
    | some target => walkTarget goal top link target target.encode (children target)
    | none =>
      unless ← adopt link link.digest goal do
        let target ← StoreAction.resolve link
        walkTarget goal top link target target.encode (children target)

end Link

/--
The encoding of a cell, and the walk of the links below it; `follow` walks the children of a cell
that a soft link leads to.
-/
def Cell.encodeWalking (goal : Status) (follow : Cell → StoreAction Unit) :
    Cell → Bytes × StoreAction Unit :=
  Cell.fold
    (fun _ (value : Value (Bytes × StoreAction Unit)) =>
      ((value.mapLinks Prod.fst).write, value.links.forM Prod.snd))
    (fun label target (encoding, children) =>
      (writtenChild encoding,
        (Link.direct label target).walkDirect goal false target encoding children))
    (fun label digest => (digest.written, (Link.soft label digest).walkSoft goal false follow))

theorem Cell.encodeWalking_fst (goal : Status) (follow : Cell → StoreAction Unit) (cell : Cell) :
    (cell.encodeWalking goal follow).1 = cell.encode :=
  Cell.fold_fst_eq_encode (fun _ _ => rfl) (fun _ _ _ => rfl) (fun _ _ => rfl) cell

/-- Walk the children of a cell, following at most `hops` soft links in a row. -/
def Cell.walkChildren (goal : Status) : Nat → Cell → StoreAction Unit
  | 0 => fun _ => throw .endlessLinks
  | hops + 1 => fun cell => (cell.encodeWalking goal (Cell.walkChildren goal hops)).2

namespace StoreAction

/-- Bring the graph below a link up to a status, following at most `hops` soft links in a row. -/
def walkWithin (hops : Nat) (goal : Status) (link : Link) : StoreAction Unit :=
  match link with
  | .direct _ target => link.walkDirect goal true target target.encode (target.walkChildren goal hops)
  | .soft _ _ => link.walkSoft goal true (Cell.walkChildren goal hops)

/-- Bring the graph below a link up to a status. -/
def walk (goal : Status) (link : Link) : StoreAction Unit := do
  walkWithin (hopLimit (← getThe Site)) goal link

/-- Bring a cell and everything below it up to a status; gives a link to the cell. -/
def make (goal : Status) (cell : Cell) : StoreAction Link := do
  let link ← ofCalc cell.link
  walk goal link
  return link

end StoreAction

/-! ### Completeness -/

/-- Count the cells below a cell; `follow` counts a cell that a soft link leads to. -/
def Cell.countLinks (follow : Cell → StoreAction Nat) : Cell → StoreAction Nat :=
  Cell.fold
    (fun _ (value : Value (StoreAction Nat)) =>
      value.links.foldlM (fun total link => return total + (← link)) 1)
    (fun _ _ count => count)
    (fun label digest => do follow (← StoreAction.resolve (.soft label digest)))

/-- Count a cell and those below it, following at most `hops` soft links in a row. -/
def Cell.countWithin : Nat → Cell → StoreAction Nat
  | 0 => fun _ => throw .endlessLinks
  | hops + 1 => Cell.countLinks (Cell.countWithin hops)

/--
Check that every cell below a cell can be had from memory or from the store. Gives the number of
cells met, a cell that is met again counting again.
-/
def StoreAction.checkComplete (cell : Cell) : StoreAction Nat := do
  cell.countWithin (hopLimit (← getThe Site))

end CellGraph
