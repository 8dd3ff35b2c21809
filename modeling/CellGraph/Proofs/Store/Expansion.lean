import CellGraph.Proofs.Cell.UniqueParsing
import CellGraph.Proofs.Walk.Descendants

/-!
# Expansions

A cell is full on a site if every link below it leads to a cell there, at every depth. Then it has
an expansion: the cell that comes of it when every link holds its target. Expansions have no labels
of their own, so a cell and the one that is read from its encoding have the same one.

* `Site.Full`: cells below which every link leads to a cell;
* `Site.Expands`, `Site.Full.exists_expands`: expansions;
* `Origin.Meets.expansion_eq`: cells with one encoding have one expansion;
* `Origin.Meets.full`: cells below which the store is complete.
-/

namespace CellGraph

open StoreAction

namespace Site

/-- Every link below a cell leads to a cell, at every depth. -/
inductive Full (site : Site) : Cell → Prop
  | intro {cell : Cell} (leads : ∀ link ∈ cell.links, ∃ target, site.Target link target)
    (below : ∀ link ∈ cell.links, ∀ target, site.Target link target → Full site target) :
    Full site cell

/-- What a cell becomes when every link below it is replaced by one that holds its target. -/
inductive Expands (site : Site) : Cell → Cell → Prop
  | intro (label : Label) (triples : Value (Link × Cell × Cell))
    (targets : ∀ triple ∈ triples.links, site.Target triple.1 triple.2.1)
    (below : ∀ triple ∈ triples.links, Expands site triple.2.1 triple.2.2) :
    Expands site (.mk label (triples.mapLinks Prod.fst))
      (.mk 0 (triples.mapLinks fun triple => .direct 0 triple.2.2))

variable {site site' : Site} {cell : Cell}

theorem Full.exists_expands (h : site.Full cell) : ∃ whole, site.Expands cell whole := by
  induction h with
  | @intro cell leads below ih =>
    choose! target htarget using leads
    have hbelow : ∀ link ∈ cell.links, ∃ whole, site.Expands (target link) whole :=
      fun link hlink => ih link hlink _ (htarget link hlink)
    choose! whole hwhole using hbelow
    obtain ⟨label, value⟩ := cell
    have hmem : ∀ triple ∈ (value.mapLinks fun link => (link, target link, whole link)).links,
        ∃ link ∈ value.links, (link, target link, whole link) = triple := by
      intro triple htriple
      rw [Value.links_mapLinks] at htriple
      exact List.mem_map.1 htriple
    have hexpands := Expands.intro label
      (value.mapLinks fun link => (link, target link, whole link))
      (fun triple htriple => by
        obtain ⟨link, hlink, rfl⟩ := hmem triple htriple
        exact htarget link hlink)
      (fun triple htriple => by
        obtain ⟨link, hlink, rfl⟩ := hmem triple htriple
        exact hwhole link hlink)
    rw [Value.mapLinks_mapLinks, Value.mapLinks_id] at hexpands
    exact ⟨_, hexpands⟩

end Site

namespace Origin

variable {origin origin' : Origin} {held held' : Set Link} {site site' : Site}

/--
Cells with one encoding have one expansion, even if they are on different sites. The induction is on
the expansion of the first one; links in the same places are written alike, so they lead to cells
with one encoding.
-/
theorem Meets.expansion_eq (h : origin.Inv held site) (h' : origin'.Inv held' site')
    (heq : origin'.encodings = origin.encodings) (hinj : Set.InjOn Digest.of origin.encodings)
    {cell cell' whole whole' : Cell} (hcell : Meets held site cell)
    (hcell' : Meets held' site' cell') (hencode : cell.encode = cell'.encode)
    (hexpands : site.Expands cell whole) (hexpands' : site'.Expands cell' whole') :
    whole = whole' := by
  induction hexpands generalizing cell' whole' with
  | intro label triples targets below ih =>
    obtain ⟨label', triples', targets', below'⟩ := hexpands'
    have hwritten := Cell.mapLinks_eq_of_encode_eq hcell.sound hcell'.sound hencode
    simp only [Cell.value, Value.mapLinks_mapLinks] at hwritten
    have hmem : ∀ triple ∈ triples.links,
        triple.1 ∈ (Cell.mk label (triples.mapLinks Prod.fst)).links := by
      intro triple htriple
      rw [Cell.links, Cell.value, Value.links_mapLinks]
      exact List.mem_map_of_mem htriple
    have hmem' : ∀ triple ∈ triples'.links,
        triple.1 ∈ (Cell.mk label' (triples'.mapLinks Prod.fst)).links := by
      intro triple htriple
      rw [Cell.links, Cell.value, Value.links_mapLinks]
      exact List.mem_map_of_mem htriple
    have halike : triples.Alike (fun triple triple' => triple.2.2 = triple'.2.2) triples' := by
      refine (Value.Alike.of_mapLinks_eq hwritten).mono_links
        fun triple htriple triple' htriple' hlinks => ?_
      obtain ⟨hmeets, hdigest, hplace⟩ :=
        hcell.child_of_target h (hmem triple htriple) (targets triple htriple)
      obtain ⟨hmeets', hdigest', hplace'⟩ :=
        hcell'.child_of_target h' (hmem' triple' htriple') (targets' triple' htriple')
      refine ih triple htriple hmeets hmeets' ?_ (below' triple' htriple')
      cases Link.twins hlinks with
      | @inline s t ha hb hst =>
        rw [ha] at hplace
        rw [hb] at hplace'
        have hs : s = triple.2.1 := by simpa using hplace
        have ht : t = triple'.2.1 := by simpa using hplace'
        rw [← hs, ← ht, hst]
      | digest ha hb hab =>
        rw [ha] at hplace
        rw [hb] at hplace'
        have hmem := (hplace.resolve_left (Option.some_ne_none _).symm).2.1
        have hmem' := (hplace'.resolve_left (Option.some_ne_none _).symm).2.1
        exact hinj hmem (heq ▸ hmem') (hdigest.trans (hab.trans hdigest'.symm))
    exact congrArg (Cell.mk 0) (halike.mapLinks_eq fun triple triple' hwhole => by rw [hwhole])

/-- A cell is full if every digest that it names has an entry, and is that of full cells only. -/
theorem Meets.full_of_named (h : origin.Inv held site) {cell : Cell} (hcell : Meets held site cell)
    (hnamed : ∀ digest ∈ cell.named, (site.store.find? digest).isSome ∧
      ∀ target, Meets held site target → target.digest = digest →
        target.encode ∈ origin.encodings → site.Full target) : site.Full cell := by
  -- The digest may be named for a cell that is inline, perhaps at some depth.
  induction cell using Cell.induct with
  | step label value ih =>
    have hlarge : ∀ link ∈ (Cell.mk label value).links, link.inline? = none →
        link.digest ∈ (Cell.mk label value).named := by
      intro link hlink hinline
      refine Cell.mem_named.2 ⟨link, hlink, ?_⟩
      rw [Link.named_of_not_inline hinline]
      exact List.mem_singleton_self _
    refine .intro (fun link hlink => ?_) fun link hlink target htarget => ?_
    · cases hresident : site.known.resident link with
      | some target => exact ⟨target, .inl hresident⟩
      | none =>
        have hinline : link.inline? = none := by
          cases link with
          | direct => cases hresident
          | soft => rfl
        obtain ⟨hentry, -⟩ := hnamed _ (hlarge link hlink hinline)
        obtain ⟨entry, hfound⟩ := Option.isSome_iff_exists.1 hentry
        obtain ⟨target, hread, -⟩ := h.store.exists_read hfound site.known
        exact ⟨target, .inr ⟨hresident, site.known, Nat.le_refl _, hread⟩⟩
    · obtain ⟨hmeets, hdigest, hplace⟩ := hcell.child_of_target h hlink htarget
      rcases hplace with hinline | ⟨hinline, hrefers⟩
      · refine ih link hlink target (Link.target?_of_inline hinline) hmeets fun digest hdigest => ?_
        refine hnamed digest (Cell.mem_named.2 ⟨link, hlink, ?_⟩)
        rwa [Link.named_of_inline hinline]
      · exact (hnamed _ (hlarge link hlink hinline)).2 target hmeets hdigest hrefers.1

/-- A cell is full if the store is complete below every digest that it names. -/
theorem Meets.full (h : origin.Inv held site) (hinj : Set.InjOn Digest.of origin.encodings)
    {cell : Cell} (hcell : Meets held site cell)
    (hnamed : ∀ digest ∈ cell.named, site.store.Complete digest) : site.Full cell := by
  have hentry : ∀ key, site.store.Complete key → ∀ target, Meets held site target →
      target.digest = key → target.encode ∈ origin.encodings → site.Full target := by
    intro key hcomplete
    induction hcomplete with
    | @entry key encoding status find named ih =>
      intro target htarget hdigest hmem
      obtain rfl : encoding = target.encode := hinj (h.encodings _ _ _ find) hmem
        ((h.store.key _ _ _ find).symm.trans hdigest.symm)
      rw [Cell.named_encode htarget.sound] at named ih
      exact htarget.full_of_named h fun digest hdigest => ⟨(named digest hdigest).isSome,
        ih digest hdigest⟩
  exact hcell.full_of_named h fun digest hdigest => ⟨(hnamed digest hdigest).isSome,
    hentry digest (hnamed digest hdigest)⟩

end Origin

end CellGraph
