import CellGraph.Cell.Canonical
import Mathlib.Algebra.Group.Nat.Defs

/-!
# Everything below a cell

A cell that is written inline brings its own children with it, so what is said of a cell's written
form is said of the links of all the cells that it holds, at every depth.

* `Cell.everyLink`, `Link.everyLink`: a cell's links at every depth, in the order in which they are
  written;
* `Value.written_infix`, `Cell.encode_infix`: what is written inline is a part of the whole;
* `Cell.encode_length_lt`: a child's encoding is shorter than its parent's;
* `Value.Sound`, `Cell.Sound`: cells that are valid at every depth.
-/

namespace CellGraph

/-- The links of a cell and of every cell that it holds, in the order in which they are written. -/
def Cell.everyLink : Cell → List Link :=
  Cell.fold (fun _ (value : Value (List Link)) => value.links.flatten)
    (fun label target below => .direct label target :: below)
    (fun label digest => [.soft label digest])

/-- A link, and those of its target, if it holds it. -/
def Link.everyLink : Link → List Link
  | .direct label target => .direct label target :: target.everyLink
  | .soft label digest => [.soft label digest]

theorem Cell.everyLink_mk (label : Label) (value : Value Link) :
    Cell.everyLink (.mk label value) = value.links.flatMap Link.everyLink := by
  have h : Link.fold (fun _ (value : Value (List Link)) => value.links.flatten)
      (fun label target below => .direct label target :: below)
      (fun label digest => [.soft label digest]) = Link.everyLink := by
    funext link
    cases link <;> simp [Link.everyLink, Cell.everyLink]
  rw [Cell.everyLink, Cell.fold_mk, h, Value.links_mapLinks, List.flatMap]

theorem Link.self_mem_everyLink (link : Link) : link ∈ link.everyLink := by
  cases link <;> simp [everyLink]

/-- A link below another one is that link, or lies below its target. -/
theorem Link.mem_everyLink {link other : Link} :
    other ∈ link.everyLink ↔ other = link ∨ ∃ t, link.target? = some t ∧ other ∈ t.everyLink := by
  cases link <;> simp [everyLink, target?]

/-- A cell's own links, and those of their targets. -/
theorem Cell.mem_everyLink {cell : Cell} {other : Link} :
    other ∈ cell.everyLink ↔ ∃ link ∈ cell.links, other ∈ link.everyLink := by
  obtain ⟨label, value⟩ := cell
  rw [Cell.everyLink_mk, List.mem_flatMap]
  rfl

theorem Cell.mem_everyLink_of_mem {cell : Cell} {link : Link} (h : link ∈ cell.links) :
    link ∈ cell.everyLink :=
  Cell.mem_everyLink.2 ⟨link, h, link.self_mem_everyLink⟩

theorem Cell.mem_everyLink_of_target {cell target : Cell} {link other : Link}
    (h : link ∈ cell.links) (ht : link.target? = some target) (ho : other ∈ target.everyLink) :
    other ∈ cell.everyLink :=
  Cell.mem_everyLink.2 ⟨link, h, Link.mem_everyLink.2 (.inr ⟨target, ht, ho⟩)⟩

/-- What is below something that is below a cell is below the cell. -/
theorem Cell.mem_everyLink_trans {cell target : Cell} {link other : Link}
    (h : link ∈ cell.everyLink) (ht : link.target? = some target) (ho : other ∈ target.everyLink) :
    other ∈ cell.everyLink := by
  induction cell using Cell.induct with
  | step label value ih =>
    obtain ⟨first, hfirst, hbelow⟩ := Cell.mem_everyLink.1 h
    rcases Link.mem_everyLink.1 hbelow with rfl | ⟨c, hc, hbelow⟩
    · exact Cell.mem_everyLink_of_target hfirst ht ho
    · exact Cell.mem_everyLink_of_target hfirst hc (ih first hfirst c hc hbelow)

/-! ### Parts of an encoding -/

/-- The written form of every child is a part of the written form of the value. -/
theorem Value.written_infix {value : Value Bytes} {child : Bytes} (h : child ∈ value.links) :
    child <:+: value.writeBody := by
  cases value with
  | vector items =>
    simp only [Value.writeBody, Bytes.concat_eq]
    exact (List.infix_of_mem_flatten h).trans (List.suffix_append _ _).isInfix
  | map entries =>
    obtain ⟨entry, he, hchild⟩ := List.mem_flatMap.1 h
    have hentry : child <:+: entry.1 ++ entry.2 := by
      rcases List.mem_cons.1 hchild with rfl | hchild
      · exact (List.prefix_append _ _).isInfix
      · rw [List.mem_singleton.1 hchild]
        exact (List.suffix_append _ _).isInfix
    simp only [Value.writeBody]
    refine (hentry.trans ?_).trans (List.suffix_append _ _).isInfix
    exact List.infix_of_mem_flatten (List.mem_map_of_mem he)
  | peer record =>
    simp only [Value.writeBody, List.append_assoc]
    rcases List.mem_append.1 h with h | h
    · rw [Option.mem_toList.1 h, ← List.append_assoc]
      exact List.infix_append' _ _ _
    · rw [Option.mem_toList.1 h]
      iterate 3 rw [← List.append_assoc]
      exact List.infix_append' _ _ _
  | _ => cases h

/-- An encoding is a tag, and what follows it. -/
theorem Cell.encode_eq (cell : Cell) :
    cell.encode = cell.value.kind.tag :: (cell.value.mapLinks Link.written).writeBody := by
  obtain ⟨label, value⟩ := cell
  rw [Cell.encode_mk, Value.write, Value.kind_mapLinks]
  rfl

theorem Link.written_infix {cell : Cell} {link : Link} (h : link ∈ cell.links) :
    link.written <:+: (cell.value.mapLinks Link.written).writeBody := by
  refine Value.written_infix ?_
  rw [Value.links_mapLinks]
  exact List.mem_map_of_mem h

theorem Link.written_ne_nil (link : Link) : link.written ≠ [] := by
  cases link with
  | direct label target =>
    rw [written, writtenChild, Cell.encode_eq]
    split <;> exact List.cons_ne_nil _ _
  | soft label digest => exact List.cons_ne_nil _ _

theorem Link.written_of_inline {link : Link} {target : Cell} (h : link.inline? = some target) :
    link.written = target.encode ∧ target.encode.length ≤ maxEmbedded := by
  cases link with
  | soft label digest => cases h
  | direct label held =>
    simp only [Link.inline?] at h
    split at h
    · next hsmall =>
      cases h
      have hle := (Cell.isSmall_iff _).1 hsmall
      exact ⟨by rw [Link.written, writtenChild, if_pos hle], hle⟩
    · cases h

theorem Link.target?_of_inline {link : Link} {target : Cell} (h : link.inline? = some target) :
    link.target? = some target := by
  cases link with
  | soft label digest => cases h
  | direct label held =>
    simp only [Link.inline?] at h
    split at h <;> cases h
    rfl

/-- The encoding of an inline child is shorter than that of its parent. -/
theorem Cell.encode_length_lt {cell target : Cell} {link : Link} (h : link ∈ cell.links)
    (hinline : link.inline? = some target) : target.encode.length < cell.encode.length := by
  have hle := (Link.written_infix h).length_le
  rw [(Link.written_of_inline hinline).1] at hle
  rw [Cell.encode_eq cell, List.length_cons]
  omega

/--
If every cell held below a cell is written inline, the encoding of each is a part of the whole.
-/
theorem Cell.encode_infix {cell : Cell}
    (hinline : ∀ link ∈ cell.everyLink, ∀ t, link.target? = some t → link.inline? = some t) :
    ∀ link ∈ cell.everyLink, ∀ t, link.target? = some t → t.encode <:+: cell.encode := by
  induction cell using Cell.induct with
  | step label value ih =>
    intro link hlink t ht
    obtain ⟨first, hfirst, hbelow⟩ := Cell.mem_everyLink.1 hlink
    -- A child's target is written in the value, and what is below it in the target's encoding.
    have hpart : ∀ c, first.target? = some c → c.encode <:+: Cell.encode (.mk label value) := by
      intro c hc
      have hc' := hinline first (Cell.mem_everyLink_of_mem hfirst) c hc
      have hinfix := Link.written_infix hfirst
      rw [(Link.written_of_inline hc').1] at hinfix
      rw [Cell.encode_eq (.mk label value)]
      exact hinfix.trans (List.suffix_cons _ _).isInfix
    rcases Link.mem_everyLink.1 hbelow with rfl | ⟨c, hc, hbelow⟩
    · exact hpart t ht
    · refine (ih first hfirst c hc (fun l hl => ?_) link hbelow t ht).trans (hpart c hc)
      exact hinline l (Cell.mem_everyLink_of_target hfirst hc hl)

/-! ### Sound cells -/

/-- The lengths that are written in a value are 64-bit numbers. -/
def Value.Fits {ρ : Type} : Value ρ → Prop
  | text s => (Bytes.ofText s).length < 2 ^ 64
  | blob bytes => bytes.length < 2 ^ 64
  | vector items => items.length < 2 ^ 64
  | map entries => entries.length < 2 ^ 64
  | _ => True

/-- A value that is valid as far as it holds its children itself. -/
structure Value.Sound (value : Value Link) : Prop where
  valid : value.validate Link.target? = .ok ()
  fits : value.Fits

/-- A cell is sound if its value is, and those of all the cells that it holds. -/
structure Cell.Sound (cell : Cell) : Prop where
  value : cell.value.Sound
  below : ∀ link ∈ cell.everyLink, ∀ t, link.target? = some t → t.value.Sound

theorem Cell.Sound.target {cell target : Cell} {link : Link} (h : cell.Sound)
    (hlink : link ∈ cell.links) (ht : link.target? = some target) : target.Sound :=
  ⟨h.below link (Cell.mem_everyLink_of_mem hlink) target ht,
    fun other hother => h.below other (Cell.mem_everyLink_of_target hlink ht hother)⟩

end CellGraph
