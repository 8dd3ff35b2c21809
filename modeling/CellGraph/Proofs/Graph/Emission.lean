import CellGraph.Proofs.Cell.UniqueParsing
import CellGraph.Proofs.Session.Labelled

/-!
# Writing at a time

Cells never change, but links do: a soft link comes to hold its target, and what is written for a
link depends on what it holds. Here a cell is written as a program writes it that keeps such links:
what a link holds is asked for at the time, small targets are written inline and large ones by
digest, and what has been worked out once may be noted and used again. If what has been noted is
right, this gives the encoding of the cell, whatever links hold by then.

* `Graph`: a user without a store, and what has been noted of encodings and digests;
* `Graph.Emits`, `Graph.Hashes`: how cells, links and digests are worked out at a time;
* `Graph.Faithful`: what has been noted is right;
* `Graph.Faithful.eq_of_emits`, `Graph.Faithful.emits`: what is written, and that it can be.
-/

namespace CellGraph

/-- The cells and links of a user, and the encodings and digests that have been noted for cells. -/
structure Graph where
  session : Session Empty := { stores := nofun }
  encodings : Label → Option Bytes := fun _ => none
  digests : Label → Option Digest := fun _ => none

/-- What is written: a cell, or a link in its parent's encoding. -/
inductive Part
  | cell (cell : Cell)
  | child (link : Link)

/-- The cells and links that are in use. -/
def Part.Uses (held : Set Link) : Part → Prop
  | cell c => c.Marked held
  | child link => link ∈ held

/-- What is written for a cell or a link, whatever is known. -/
def Part.written : Part → Bytes
  | cell c => c.encode
  | child link => link.written

namespace Graph

/-- What is known of the graph. -/
abbrev known (graph : Graph) : Knowledge := graph.session.known

/-- The cells of a graph. -/
def cells (graph : Graph) : Set Cell := graph.session.cells

/-- The links of a graph. -/
def links (graph : Graph) : Set Link := graph.session.links

/-- The same graph, with nothing noted. -/
def forget (graph : Graph) : Graph := { session := graph.session }

/--
What can be written for a cell or a link at a time. Each cell that is met may be written anew, or
taken from what has been noted for it. A link is written inline if the cell that it holds at the
time is small, and by digest otherwise: a direct link by the digest of its target, which may have
been noted as well, a soft link by its own.
-/
inductive Emits (graph : Graph) : Part → Bytes → Prop
  | noted {cell : Cell} {bytes : Bytes} (h : graph.encodings cell.label = some bytes) :
    Emits graph (.cell cell) bytes
  | value (label : Label) (pairs : Value (Link × Bytes))
    (h : ∀ pair ∈ pairs.links, Emits graph (.child pair.1) pair.2) :
    Emits graph (.cell (.mk label (pairs.mapLinks Prod.fst))) (pairs.mapLinks Prod.snd).write
  | inline {link : Link} {target : Cell} {bytes : Bytes}
    (hresident : graph.known.resident link = some target) (h : Emits graph (.cell target) bytes)
    (hsmall : bytes.length ≤ maxEmbedded) : Emits graph (.child link) bytes
  | hashed {label : Label} {target : Cell} {bytes bytes' : Bytes}
    (h : Emits graph (.cell target) bytes) (hlarge : maxEmbedded < bytes.length)
    (h' : Emits graph (.cell target) bytes') :
    Emits graph (.child (.direct label target)) (Digest.of bytes').written
  | hashNoted {label : Label} {target : Cell} {bytes : Bytes} {digest : Digest}
    (h : Emits graph (.cell target) bytes) (hlarge : maxEmbedded < bytes.length)
    (hdigest : graph.digests target.label = some digest) :
    Emits graph (.child (.direct label target)) digest.written
  | large {label : Label} {digest : Digest} {target : Cell} {bytes : Bytes}
    (hresident : graph.known.resident (.soft label digest) = some target)
    (h : Emits graph (.cell target) bytes) (hlarge : maxEmbedded < bytes.length) :
    Emits graph (.child (.soft label digest)) digest.written
  | absent {label : Label} {digest : Digest}
    (hresident : graph.known.resident (.soft label digest) = none) :
    Emits graph (.child (.soft label digest)) digest.written

/-- A digest that can be found for a cell at a time: noted before, or worked out. -/
def Hashes (graph : Graph) (cell : Cell) (digest : Digest) : Prop :=
  graph.digests cell.label = some digest ∨
    ∃ bytes, graph.Emits (.cell cell) bytes ∧ digest = Digest.of bytes

/--
Working out an encoding comes to an end: from a cell for which nothing has been noted to the cells
that its links hold there is no way down without end.
-/
def Grounded (graph : Graph) : Prop :=
  WellFounded fun target cell : Cell => graph.encodings cell.label = none ∧
    ∃ link ∈ cell.links, graph.known.resident link = some target

variable {graph : Graph} {held : Set Link} {cell : Cell}

/-! ### What is written is right -/

/-- What has been noted is the encoding, or the digest, of the cell in use with that label. -/
structure Faithful (held : Set Link) (graph : Graph) : Prop where
  session : graph.session.Labelled held
  encodings : ∀ label bytes, graph.encodings label = some bytes →
    ∃ cell : Cell, cell.Marked held ∧ cell.label = label ∧ bytes = cell.encode
  digests : ∀ label digest, graph.digests label = some digest →
    ∃ cell : Cell, cell.Marked held ∧ cell.label = label ∧ digest = cell.digest

/-- What has been noted for a cell is about that cell. -/
theorem Faithful.eq_of_label (h : graph.Faithful held) {other : Cell} (hother : other.Marked held)
    (hcell : cell.Marked held) (hlabel : other.label = cell.label) : other = cell :=
  (Link.direct.inj (h.session.known.label_inj _ hother.mark _ hcell.mark hlabel)).2

theorem Faithful.encodings_eq (h : graph.Faithful held) (hcell : cell.Marked held) {bytes : Bytes}
    (hnoted : graph.encodings cell.label = some bytes) : bytes = cell.encode := by
  obtain ⟨other, hother, hlabel, heq⟩ := h.encodings _ bytes hnoted
  rw [heq, h.eq_of_label hother hcell hlabel]

theorem Faithful.digests_eq (h : graph.Faithful held) (hcell : cell.Marked held) {digest : Digest}
    (hnoted : graph.digests cell.label = some digest) : digest = cell.digest := by
  obtain ⟨other, hother, hlabel, heq⟩ := h.digests _ digest hnoted
  rw [heq, h.eq_of_label hother hcell hlabel]

/-- Nothing noted is right. -/
theorem Faithful.forget (h : graph.Faithful held) : graph.forget.Faithful held :=
  ⟨h.session, nofun, nofun⟩

theorem written_direct_of_large (label : Label) {target : Cell}
    (hlarge : maxEmbedded < target.encode.length) :
    (Link.direct label target).written = target.digest.written := by
  rw [Link.written, writtenChild, if_neg (Nat.not_le.2 hlarge)]
  rfl

theorem written_direct_of_small (label : Label) {target : Cell}
    (hsmall : target.encode.length ≤ maxEmbedded) :
    (Link.direct label target).written = target.encode := by
  rw [Link.written, writtenChild, if_pos hsmall]

/-- A cell that a soft link holds is large. -/
theorem Faithful.large (h : graph.Faithful held) {label : Label} {digest : Digest} {target : Cell}
    (hresident : graph.known.resident (.soft label digest) = some target) :
    maxEmbedded < target.encode.length := by
  have hsmall := (h.session.known.kept label target hresident).2.1
  rw [← Nat.not_le, ← Cell.isSmall_iff, hsmall]
  exact Bool.false_ne_true

/--
Whatever is written at a time is what is always written. The induction is on how it was written, and
soft links are the point: a soft link is written by digest also when it holds its target, as that is
large.
-/
theorem Faithful.eq_of_emits (h : graph.Faithful held) {part : Part} {bytes : Bytes}
    (hemits : graph.Emits part bytes) (hpart : part.Uses held) : bytes = part.written := by
  induction hemits with
  | noted hnoted => exact h.encodings_eq hpart hnoted
  | value label pairs _ ih =>
    have hlinks : ∀ pair ∈ pairs.links, pair.1 ∈ held := by
      intro pair hpair
      refine Cell.Within.links hpart.toWithin _ (Cell.mem_everyLink_of_mem ?_)
      rw [Cell.links, Cell.value, Value.links_mapLinks]
      exact List.mem_map_of_mem hpair
    rw [Part.written, Cell.encode_mk, Value.mapLinks_mapLinks]
    exact congrArg Value.write
      (Value.mapLinks_congr fun pair hpair => ih pair hpair (hlinks pair hpair))
  | @inline link target bytes hresident _ hsmall ih =>
    obtain rfl := ih (h.session.known.resident_marked hpart hresident)
    cases link with
    | direct label target =>
      cases hresident
      exact (written_direct_of_small label hsmall).symm
    | soft label digest => exact absurd (h.large hresident) (Nat.not_lt.2 hsmall)
  | @hashed label target _ _ _ hlarge _ ih ih' =>
    have htarget := h.session.known.target_marked hpart rfl
    obtain rfl := ih htarget
    obtain rfl := ih' htarget
    exact (written_direct_of_large label hlarge).symm
  | @hashNoted label target _ _ _ hlarge hdigest ih =>
    have htarget := h.session.known.target_marked hpart rfl
    obtain rfl := ih htarget
    rw [h.digests_eq htarget hdigest]
    exact (written_direct_of_large label hlarge).symm
  | large => rfl
  | absent => rfl

/-- Any cell in use can be written, if working out encodings comes to an end. -/
theorem Faithful.emits (h : graph.Faithful held) (hgrounded : graph.Grounded)
    (hcell : cell.Marked held) : graph.Emits (.cell cell) cell.encode := by
  induction cell using hgrounded.induction with
  | _ cell ih =>
    cases hnoted : graph.encodings cell.label with
    | some bytes =>
      rw [← h.encodings_eq hcell hnoted]
      exact .noted hnoted
    | none =>
      have hchild : ∀ link ∈ cell.links, graph.Emits (.child link) link.written := by
        intro link hlink
        have hheld := hcell.links link (Cell.mem_everyLink_of_mem hlink)
        have htarget : ∀ target, graph.known.resident link = some target →
            graph.Emits (.cell target) target.encode := fun target hresident =>
          ih target ⟨hnoted, link, hlink, hresident⟩
            (h.session.known.resident_marked hheld hresident)
        cases link with
        | direct label target =>
          by_cases hsmall : target.encode.length ≤ maxEmbedded
          · rw [written_direct_of_small label hsmall]
            exact .inline rfl (htarget target rfl) hsmall
          · rw [written_direct_of_large label (Nat.not_le.1 hsmall)]
            exact .hashed (htarget target rfl) (Nat.not_le.1 hsmall) (htarget target rfl)
        | soft label digest =>
          cases hresident : graph.known.resident (.soft label digest) with
          | none => exact .absent hresident
          | some target => exact .large hresident (htarget target hresident) (h.large hresident)
      obtain ⟨label, value⟩ := cell
      have hvalue := Emits.value label (value.mapLinks fun link => (link, link.written))
        fun pair hpair => by
          rw [Value.links_mapLinks] at hpair
          obtain ⟨link, hlink, rfl⟩ := List.mem_map.1 hpair
          exact hchild link hlink
      rw [Value.mapLinks_mapLinks, Value.mapLinks_mapLinks] at hvalue
      dsimp only at hvalue
      rw [Value.mapLinks_id] at hvalue
      rw [Cell.encode_mk]
      exact hvalue

theorem Faithful.hashes_iff (h : graph.Faithful held) (hgrounded : graph.Grounded)
    (hcell : cell.Marked held) {digest : Digest} :
    graph.Hashes cell digest ↔ digest = cell.digest := by
  refine ⟨?_, ?_⟩
  · rintro (hnoted | ⟨bytes, hemits, rfl⟩)
    · exact h.digests_eq hcell hnoted
    · rw [h.eq_of_emits hemits hcell]
      rfl
  · rintro rfl
    exact .inr ⟨_, h.emits hgrounded hcell, rfl⟩

end Graph

end CellGraph
