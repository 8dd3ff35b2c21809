import CellGraph.Proofs.Walk.Trace

/-!
# The cells below a cell

Below a cell are the cells that its links hold, or that the store gives for them. They have the
encodings on which the encoding of the cell depends, and those of cells that are inline.

* `Origin.Meets`: cells that can be met on a site;
* `Origin.Meets.child`: the cells below them can be met as well;
* `Origin.Meets.depends`, `Origin.Meets.exists_below`: from cells to encodings, and back.
-/

namespace CellGraph

open StoreAction

/--
A cell that can be met on a site: it is sound, and its links are in use, or have labels that have
not been used and lead only to cells that are inline.
-/
structure Origin.Meets (held : Set Link) (site : Site) (cell : Cell) : Prop where
  sound : cell.Sound
  links : ∀ link ∈ cell.everyLink, link ∈ held ∨ site.known.next ≤ link.label ∧
    ∀ t, link.target? = some t → t.isSmall

namespace Origin

variable {origin : Origin} {held : Set Link} {site : Site} {cell target : Cell} {link : Link}

theorem Inv.meets_of_within (h : origin.Inv held site) (hcell : cell.Within origin.Covers held) :
    Meets held site cell :=
  ⟨sound_of_within h.coherent hcell, fun link hlink => .inl (hcell.links link hlink)⟩

/-- What the store gives can be met, and its encoding is among those that there are. -/
theorem Inv.meets_of_gives (h : origin.Inv held site) {key : Digest}
    (hgives : site.Gives key cell) :
    Meets held site cell ∧ cell.digest = key ∧ cell.encode ∈ origin.encodings := by
  obtain ⟨known, hnext, hread⟩ := hgives
  obtain ⟨status, hentry⟩ := h.store.of_read hread
  refine ⟨?_, (h.store.key _ _ _ hentry).symm, h.encodings _ _ _ hentry⟩
  cases hstore : site.store with
  | memory entries =>
    rw [hstore, Store.read_memory] at hread
    obtain ⟨entry, hfind, rfl⟩ := Option.map_eq_some_iff.1 (Except.ok.inj hread)
    exact h.meets_of_within (h.remembers _ (by rw [hstore]; exact ⟨key, entry.2, hfind⟩))
  | table rows =>
    rw [hstore, Store.read_table] at hread
    split at hread
    · cases hread
    · next row hrow =>
      split at hread
      · next found hdecode =>
        cases hread
        obtain ⟨hfrom, -⟩ := Cell.readFrom_of_decode hdecode
        refine ⟨⟨hfrom.sound, hfrom.laid.sound⟩, fun link hlink => .inr ⟨?_, fun t ht => ?_⟩⟩
        · have hlabel := (hfrom.laid.within link hlink).1
          exact hnext.trans ((Nat.le_add_right _ _).trans hlabel)
        · have hinline := hfrom.laid.inline link hlink t ht
          exact (Cell.isSmall_iff t).2 (Link.written_of_inline hinline).2
      · cases hread

/-- What a cell holds can be met if the cell can be. -/
theorem Meets.of_target (h : Meets held site cell) (hlink : link ∈ cell.links)
    (ht : link.target? = some target) : Meets held site target :=
  ⟨h.sound.target hlink ht, fun other hother =>
    h.links other (Cell.mem_everyLink_of_target hlink ht hother)⟩

/--
A cell to which a link of a cell leads can be met. It is inline in the other cell, or that refers to
it.
-/
theorem Meets.child_of_target (h : origin.Inv held site) (hcell : Meets held site cell)
    (hlink : link ∈ cell.links) (htarget : site.Target link target) :
    Meets held site target ∧ target.digest = link.digest ∧ (link.inline? = some target ∨
      link.inline? = none ∧ Refers origin.encodings cell.encode target.encode) := by
  have hlinks := hcell.links link (Cell.mem_everyLink_of_mem hlink)
  have hrefers : link.inline? = none → target.digest = link.digest →
      target.encode ∈ origin.encodings → Refers origin.encodings cell.encode target.encode :=
    Cell.refers_of_not_inline hcell.sound hlink
  rcases htarget with hresident | ⟨hresident, hgives⟩
  · cases link with
    | direct label held' =>
      obtain rfl : held' = target := Option.some.inj hresident
      refine ⟨hcell.of_target hlink rfl, rfl, ?_⟩
      cases hsmall : held'.isSmall with
      | true => exact .inl (if_pos hsmall)
      | false =>
        have hinline : (Link.direct label held').inline? = none :=
          if_neg (Bool.eq_false_iff.1 hsmall)
        refine .inr ⟨hinline, hrefers hinline rfl ?_⟩
        rcases hlinks with hheld | ⟨-, hinlined⟩
        · exact (h.coherent.target _ hheld held' rfl).good.large hsmall
        · rw [hinlined held' rfl] at hsmall
          cases hsmall
    | soft label digest =>
      obtain ⟨hlt, hlarge, hwithin⟩ := h.coherent.kept label target hresident
      have hheld := hlinks.resolve_right fun hnew => absurd hlt (Nat.not_lt.2 hnew.1)
      have hdigest := h.coherent.digest _ hheld target hresident
      exact ⟨h.meets_of_within hwithin, hdigest,
        .inr ⟨rfl, hrefers rfl hdigest (hwithin.good.large hlarge)⟩⟩
  · obtain ⟨hmeets, hdigest, hencoding⟩ := h.meets_of_gives hgives
    have hinline : link.inline? = none := by
      cases link with
      | direct => cases hresident
      | soft => rfl
    exact ⟨hmeets, hdigest, .inr ⟨hinline, hrefers hinline hdigest hencoding⟩⟩

/-! ### From cells to encodings -/

theorem Meets.encloses (h : origin.Inv held site) (hcell : Meets held site cell)
    (hchild : site.Child cell target) :
    Meets held site target ∧ Encloses origin.encodings cell.encode target.encode := by
  obtain ⟨link, hlink, htarget⟩ := hchild
  obtain ⟨hmeets, -, hinline | ⟨-, hrefers⟩⟩ := hcell.child_of_target h hlink htarget
  · exact ⟨hmeets, Cell.encloses_of_inline hcell.sound hmeets.sound hlink hinline⟩
  · exact ⟨hmeets, .inr hrefers⟩

/-- What is below a cell can be met, and the cell depends on all that it refers to. -/
theorem Meets.below (h : origin.Inv held site) (hcell : Meets held site cell)
    (hbelow : Relation.ReflTransGen site.Child cell target) :
    Meets held site target ∧ ∀ encoding, Refers origin.encodings target.encode encoding →
      Depends origin.encodings cell.encode encoding := by
  induction hbelow with
  | refl => exact ⟨hcell, fun _ hrefers => .single hrefers⟩
  | tail _ hchild ih =>
    obtain ⟨hmeets, hdepends⟩ := ih
    obtain ⟨hmeets', hencloses⟩ := hmeets.encloses h hchild
    exact ⟨hmeets', fun _ hrefers => hencloses.depends hdepends hrefers⟩

/-- A cell depends on the cells below it that are too large to be inline. -/
theorem Meets.depends (h : origin.Inv held site) (hcell : Meets held site cell)
    (hbelow : Relation.TransGen site.Child cell target) (hlarge : target.isSmall = false) :
    Depends origin.encodings cell.encode target.encode := by
  obtain ⟨last, hlast, link, hlink, htarget⟩ := Relation.TransGen.tail'_iff.1 hbelow
  obtain ⟨hmeets, hdepends⟩ := hcell.below h hlast
  obtain ⟨-, -, hinline | ⟨-, hrefers⟩⟩ := hmeets.child_of_target h hlink htarget
  · have hsmall := (Cell.isSmall_iff target).2 (Link.written_of_inline hinline).2
    rw [hlarge] at hsmall
    cases hsmall
  · exact hdepends _ hrefers

/-! ### From encodings to cells -/

/-- A digest that a cell names is that of a cell below it, if the store has it. -/
theorem Meets.exists_named (h : origin.Inv held site) (hcell : Meets held site cell)
    {digest : Digest} (hnamed : digest ∈ cell.named) (hentry : (site.store.find? digest).isSome) :
    ∃ target, Relation.TransGen site.Child cell target ∧ target.digest = digest ∧
      target.encode ∈ origin.encodings := by
  -- The digest may be named for a cell that is inline, perhaps at some depth.
  induction cell using Cell.induct with
  | step label value ih =>
    obtain ⟨link, hlink, hdigest⟩ := Cell.mem_named.1 hnamed
    cases hinline : link.inline? with
    | some held' =>
      have ht := Link.target?_of_inline hinline
      rw [Link.named_of_inline hinline] at hdigest
      obtain ⟨target, hbelow, hrest⟩ := ih link hlink held' ht (hcell.of_target hlink ht) hdigest
      exact ⟨target, .head ⟨link, hlink, .inl (Knowledge.resident_of_target ht)⟩ hbelow, hrest⟩
    | none =>
      rw [Link.named_of_not_inline hinline, List.mem_singleton] at hdigest
      obtain ⟨target, htarget⟩ : ∃ target, site.Target link target := by
        cases hresident : site.known.resident link with
        | some target => exact ⟨target, .inl hresident⟩
        | none =>
          obtain ⟨entry, hfound⟩ := Option.isSome_iff_exists.1 (hdigest ▸ hentry)
          obtain ⟨target, hread, -⟩ := h.store.exists_read hfound site.known
          exact ⟨target, .inr ⟨hresident, site.known, Nat.le_refl _, hread⟩⟩
      obtain ⟨-, hof, hsome | ⟨-, hrefers⟩⟩ := hcell.child_of_target h hlink htarget
      · rw [hinline] at hsome
        cases hsome
      · exact ⟨target, .single ⟨link, hlink, htarget⟩, hof.trans hdigest.symm, hrefers.1⟩

/-- If the store has all that a cell depends on, each of it is the encoding of a cell below. -/
theorem Meets.exists_below (h : origin.Inv held site) (hcell : Meets held site cell)
    (hinj : Set.InjOn Digest.of origin.encodings) {encoding : Bytes}
    (hdepends : Depends origin.encodings cell.encode encoding)
    (hentries : ∀ encoding, Depends origin.encodings cell.encode encoding →
      (site.store.find? (Digest.of encoding)).isSome) :
    ∃ target, Relation.TransGen site.Child cell target ∧ target.encode = encoding := by
  have hstep : ∀ {cell : Cell} {encoding : Bytes}, Meets held site cell →
      Refers origin.encodings cell.encode encoding →
      (site.store.find? (Digest.of encoding)).isSome →
      ∃ target, Relation.TransGen site.Child cell target ∧ target.encode = encoding := by
    intro cell encoding hcell hrefers hentry
    obtain ⟨target, hbelow, hdigest, hmem⟩ :=
      hcell.exists_named h (Cell.named_encode hcell.sound ▸ hrefers.2) hentry
    exact ⟨target, hbelow, hinj hmem hrefers.1 hdigest⟩
  induction hdepends with
  | single hrefers => exact hstep hcell hrefers (hentries _ (.single hrefers))
  | tail hbefore hrefers ih =>
    obtain ⟨last, hlast, rfl⟩ := ih
    obtain ⟨hmeets, -⟩ := hcell.below h hlast.to_reflTransGen
    obtain ⟨target, hbelow, hencode⟩ :=
      hstep hmeets hrefers (hentries _ (.tail hbefore hrefers))
    exact ⟨target, hlast.trans hbelow, hencode⟩

end Origin

end CellGraph
