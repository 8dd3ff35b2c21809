import CellGraph.Digest
import CellGraph.Tag

/-!
# Cells and links

A cell is an immutable value. A vector, a map or a stake record refers to other cells by links: a
direct link holds its target, a soft link only names it by digest. Cells and links carry a label
that tells apart those made on different occasions; what is learned about them later (`Knowledge`)
is filed under it. A link that occurs in several cells has one label.

* `StakeRecord`, `Value`: what a cell holds, over any type of links;
* `Cell`, `Link`: the two kinds of node of a cell graph;
* `Cell.fold`: recursion over a cell and everything it holds, with `Cell.fold_mk`;
* `Cell.induct`: the induction principle for cells.
-/

namespace CellGraph

/-- The label of a cell or of a link. -/
abbrev Label := Nat

/-- A numeric account address. -/
structure Address where
  number : UInt64
  deriving DecidableEq, Repr, Inhabited

/-- The stake record of a peer. The maps of delegators and of metadata are absent when empty. -/
structure StakeRecord (ρ : Type) where
  controller : Address
  /-- Shares that the peer itself owns. -/
  peerShares : Int64
  /-- The map from delegators to their shares. -/
  stakes : Option ρ
  /-- All delegated shares together. -/
  delegatedShares : Int64
  metadata : Option ρ
  timestamp : Int64
  /-- What the peer and its delegators own jointly. -/
  balance : Int64
  deriving Repr

/-- What a cell holds, with links of type `ρ`. -/
inductive Value (ρ : Type)
  | integer (n : Int64)
  | address (a : Address)
  | text (s : String)
  | blob (bytes : Bytes)
  | keyword (name : String)
  | vector (items : List ρ)
  /-- Entries in ascending order of their keys' digests. -/
  | map (entries : List (ρ × ρ))
  | peer (record : StakeRecord ρ)
  deriving Repr

mutual

/-- A cell: its label and its value. -/
inductive Cell
  | mk (label : Label) (value : Value Link)

/-- A link to a cell. -/
inductive Link
  /-- A link that holds its target. -/
  | direct (label : Label) (target : Cell)
  /-- A link that knows its target's digest only. -/
  | soft (label : Label) (digest : Digest)

end

instance : Inhabited Cell := ⟨.mk 0 (.integer 0)⟩

/-! ### Values -/

namespace StakeRecord

variable {ρ σ τ : Type}

/-- The links of a record, in the order in which they are written. -/
def links (record : StakeRecord ρ) : List ρ := record.stakes.toList ++ record.metadata.toList

/-- Replace every link. -/
def mapLinks (f : ρ → σ) (record : StakeRecord ρ) : StakeRecord σ :=
  { controller := record.controller
    peerShares := record.peerShares
    stakes := record.stakes.map f
    delegatedShares := record.delegatedShares
    metadata := record.metadata.map f
    timestamp := record.timestamp
    balance := record.balance }

@[simp] theorem links_mapLinks (f : ρ → σ) (record : StakeRecord ρ) :
    (record.mapLinks f).links = record.links.map f := by
  rcases record with ⟨_, _, _ | _, _, _ | _, _, _⟩ <;> rfl

theorem mapLinks_mapLinks (f : ρ → σ) (g : σ → τ) (record : StakeRecord ρ) :
    (record.mapLinks f).mapLinks g = record.mapLinks fun link => g (f link) := by
  simp [mapLinks, Function.comp_def]

theorem mapLinks_congr {f g : ρ → σ} {record : StakeRecord ρ}
    (h : ∀ link ∈ record.links, f link = g link) : record.mapLinks f = record.mapLinks g := by
  simp only [mapLinks, mk.injEq, true_and, and_true]
  exact ⟨Option.map_congr fun link hl => h link (by simp [links, hl]),
    Option.map_congr fun link hl => h link (by simp [links, hl])⟩

end StakeRecord

namespace Value

variable {ρ σ τ : Type}

/-- The kind of a value. -/
def kind : Value ρ → Kind
  | integer _ => .integer
  | address _ => .address
  | text _ => .text
  | blob _ => .blob
  | keyword _ => .keyword
  | vector _ => .vector
  | map _ => .map
  | peer _ => .peer

/-- The links of a value, in the order in which they are written. -/
def links : Value ρ → List ρ
  | vector items => items
  | map entries => entries.flatMap fun entry => [entry.1, entry.2]
  | peer record => record.links
  | _ => []

/-- Replace every link. -/
def mapLinks (f : ρ → σ) : Value ρ → Value σ
  | integer n => .integer n
  | address a => .address a
  | text s => .text s
  | blob bytes => .blob bytes
  | keyword name => .keyword name
  | vector items => .vector (items.map f)
  | map entries => .map (entries.map fun entry => (f entry.1, f entry.2))
  | peer record => .peer (record.mapLinks f)

@[simp] theorem kind_mapLinks (f : ρ → σ) (value : Value ρ) :
    (value.mapLinks f).kind = value.kind := by
  cases value <;> rfl

@[simp] theorem links_mapLinks (f : ρ → σ) (value : Value ρ) :
    (value.mapLinks f).links = value.links.map f := by
  cases value with
  | map entries => simp [mapLinks, links, List.flatMap_map, List.map_flatMap]
  | peer record => simp [mapLinks, links]
  | _ => rfl

theorem mapLinks_mapLinks (f : ρ → σ) (g : σ → τ) (value : Value ρ) :
    (value.mapLinks f).mapLinks g = value.mapLinks fun link => g (f link) := by
  cases value <;> simp [mapLinks, StakeRecord.mapLinks_mapLinks, Function.comp_def]

theorem mapLinks_congr {f g : ρ → σ} {value : Value ρ}
    (h : ∀ link ∈ value.links, f link = g link) : value.mapLinks f = value.mapLinks g := by
  cases value with
  | vector items => simpa [mapLinks, links] using h
  | map entries =>
    simp only [mapLinks, map.injEq]
    refine List.map_congr_left fun entry he => ?_
    rw [h entry.1 (List.mem_flatMap.2 ⟨entry, he, by simp⟩),
      h entry.2 (List.mem_flatMap.2 ⟨entry, he, by simp⟩)]
  | peer record => exact congrArg peer (StakeRecord.mapLinks_congr h)
  | _ => rfl

end Value

/-! ### Cells and links -/

namespace Cell

/-- The label of a cell. -/
def label : Cell → Label
  | mk label _ => label

/-- The value of a cell. -/
def value : Cell → Value Link
  | mk _ value => value

/-- The links of a cell. -/
def links (cell : Cell) : List Link := cell.value.links

/-- Whether two cells were made on the same occasion. -/
def same (a b : Cell) : Bool := a.label = b.label

end Cell

namespace Link

/-- The label of a link. -/
def label : Link → Label
  | direct label _ => label
  | soft label _ => label

/-- The target that a link was made with. -/
def target? : Link → Option Cell
  | direct _ target => some target
  | soft _ _ => none

/-- Whether a link holds its target from the start. -/
def isDirect (link : Link) : Bool := link.target?.isSome

/-- Whether two links are the same link. -/
def same (a b : Link) : Bool := a.label = b.label

end Link

/-! ### Recursion and induction -/

section Fold

variable {α β : Type} (node : Cell → Value β → α) (direct : Label → Cell → α → β)
  (soft : Label → Digest → β)

mutual

/--
Recursion over a cell: `node` sees a cell with the results of its links, `direct` a link with the
result of its target.
-/
def Cell.fold : Cell → α
  | .mk label value => node (.mk label value) (Link.foldValue value)

/-- The value with the results of its links. -/
def Link.foldValue : Value Link → Value β
  | .integer n => .integer n
  | .address a => .address a
  | .text s => .text s
  | .blob bytes => .blob bytes
  | .keyword name => .keyword name
  | .vector items => .vector (Link.foldList items)
  | .map entries => .map (Link.foldEntries entries)
  | .peer ⟨controller, peerShares, stakes, delegatedShares, metadata, timestamp, balance⟩ =>
    .peer ⟨controller, peerShares, Link.foldOption stakes, delegatedShares,
      Link.foldOption metadata, timestamp, balance⟩

/-- The result for a link. -/
def Link.fold : Link → β
  | .direct label target => direct label target (Cell.fold target)
  | .soft label digest => soft label digest

/-- The results for the items of a vector. -/
def Link.foldList : List Link → List β
  | [] => []
  | link :: rest => Link.fold link :: Link.foldList rest

/-- The results for the entries of a map. -/
def Link.foldEntries : List (Link × Link) → List (β × β)
  | [] => []
  | (key, value) :: rest => (Link.fold key, Link.fold value) :: Link.foldEntries rest

/-- The result for an optional link. -/
def Link.foldOption : Option Link → Option β
  | none => none
  | some link => some (Link.fold link)

end

theorem Link.foldList_eq (items : List Link) :
    Link.foldList node direct soft items = items.map (Link.fold node direct soft) := by
  induction items with
  | nil => rfl
  | cons link rest ih => simp [Link.foldList, ih]

theorem Link.foldEntries_eq (entries : List (Link × Link)) :
    Link.foldEntries node direct soft entries =
      entries.map fun e => (Link.fold node direct soft e.1, Link.fold node direct soft e.2) := by
  induction entries with
  | nil => rfl
  | cons entry rest ih => simp [Link.foldEntries, ih]

theorem Link.foldOption_eq (link : Option Link) :
    Link.foldOption node direct soft link = link.map (Link.fold node direct soft) := by
  cases link <;> rfl

theorem Link.foldValue_eq (value : Value Link) :
    Link.foldValue node direct soft value = value.mapLinks (Link.fold node direct soft) := by
  cases value with
  | vector items => simp [Link.foldValue, Value.mapLinks, Link.foldList_eq]
  | map entries => simp [Link.foldValue, Value.mapLinks, Link.foldEntries_eq]
  | peer record =>
    simp [Link.foldValue, Value.mapLinks, StakeRecord.mapLinks, Link.foldOption_eq]
  | _ => simp [Link.foldValue, Value.mapLinks]

/-- A cell is folded by folding its links. -/
theorem Cell.fold_mk (label : Label) (value : Value Link) :
    Cell.fold node direct soft (.mk label value) =
      node (.mk label value) (value.mapLinks (Link.fold node direct soft)) := by
  rw [Cell.fold, Link.foldValue_eq]

@[simp] theorem Link.fold_direct (label : Label) (target : Cell) :
    Link.fold node direct soft (.direct label target) =
      direct label target (Cell.fold node direct soft target) := by
  rw [Link.fold]

@[simp] theorem Link.fold_soft (label : Label) (digest : Digest) :
    Link.fold node direct soft (.soft label digest) = soft label digest := by
  rw [Link.fold]

end Fold

/-- A property holds of every cell if it passes from the targets of a cell's direct links to it. -/
theorem Cell.induct {P : Cell → Prop}
    (step : ∀ label value, (∀ link ∈ value.links, ∀ c, link.target? = some c → P c) →
      P (.mk label value))
    (cell : Cell) : P cell :=
  let held (link : Link) : Prop := ∀ c, link.target? = some c → P c
  @Cell.rec
    P
    held
    (fun value => ∀ link ∈ value.links, held link)
    (fun items => ∀ link ∈ items, held link)
    (fun entries => ∀ entry ∈ entries, held entry.1 ∧ held entry.2)
    (fun record => ∀ link ∈ record.links, held link)
    (fun entry => held entry.1 ∧ held entry.2)
    (fun link => ∀ l ∈ link, held l)
    (fun label value ih => step label value ih)
    (fun _ target ih c h => by cases h; exact ih)
    (fun _ _ c h => by cases h)
    (fun _ _ h => by cases h)
    (fun _ _ h => by cases h)
    (fun _ _ h => by cases h)
    (fun _ _ h => by cases h)
    (fun _ _ h => by cases h)
    (fun _ ih => ih)
    (fun _ ih link h => by
      obtain ⟨entry, he, hl⟩ := List.mem_flatMap.1 h
      rcases List.mem_cons.1 hl with rfl | hl
      · exact (ih entry he).1
      · rw [List.mem_singleton.1 hl]; exact (ih entry he).2)
    (fun _ ih => ih)
    (fun _ h => by cases h)
    (fun _ _ head tail link h => by
      rcases List.mem_cons.1 h with rfl | h
      · exact head
      · exact tail link h)
    (fun _ h => by cases h)
    (fun _ _ head tail entry h => by
      rcases List.mem_cons.1 h with rfl | h
      · exact head
      · exact tail entry h)
    (fun _ _ _ _ _ _ _ stakes metadata link h => by
      rcases List.mem_append.1 h with h | h
      · exact stakes link (by simpa using h)
      · exact metadata link (by simpa using h))
    (fun _ _ key value => ⟨key, value⟩)
    (fun _ h => by cases h)
    (fun _ ih link h => by cases h; exact ih)
    cell

end CellGraph
