import CellGraph.Proofs.Store.Expansion

/-!
# Copies

One cell is a copy of another one on a site if both are built alike: their links are of one kind in
the same places, a soft link and its copy name one digest, both hold a cell or neither does, and the
cells that links and their copies hold are copies again. What is below a cell is below its copies
too, and the same is missing there. A store that reads a cell twice gives two copies.

* `Site.Copies`: copies, whose links are matched by `Site.Matches`;
* `Site.Lacks`: the first digest that is missing below a cell;
* `Site.Full.copy`, `Site.Lacks.copy`: what copies have in common;
* `Origin.Inv.copies_of_target`: a link leads to copies only.
-/

namespace CellGraph

open StoreAction

namespace Site

variable {site : Site} {cell cell' : Cell} {link link' : Link} {digest : Digest}
  {related : Cell → Cell → Prop}

/-- Two links of one kind. If they hold cells, these are related. -/
inductive Matches (site : Site) (related : Cell → Cell → Prop) : Link → Link → Prop
  | direct {label label' : Label} {target target' : Cell} (below : related target target') :
    Matches site related (.direct label target) (.direct label' target')
  | held {label label' : Label} {digest : Digest} {target target' : Cell}
    (resident : site.known.resident (.soft label digest) = some target)
    (resident' : site.known.resident (.soft label' digest) = some target')
    (below : related target target') :
    Matches site related (.soft label digest) (.soft label' digest)
  | empty {label label' : Label} {digest : Digest}
    (resident : site.known.resident (.soft label digest) = none)
    (resident' : site.known.resident (.soft label' digest) = none) :
    Matches site related (.soft label digest) (.soft label' digest)

/-- Two cells are built alike, also below all their links. -/
def Copies (site : Site) (cell cell' : Cell) : Prop :=
  ∃ related : Cell → Cell → Prop, related cell cell' ∧
    ∀ a b, related a b → a.value.Alike (site.Matches related) b.value

theorem Copies.refl (site : Site) (cell : Cell) : site.Copies cell cell := by
  refine ⟨Eq, rfl, ?_⟩
  rintro a _ rfl
  refine .refl fun link _ => ?_
  cases link with
  | direct label target => exact .direct rfl
  | soft label digest =>
    cases hresident : site.known.resident (.soft label digest) with
    | some target => exact .held hresident hresident rfl
    | none => exact .empty hresident hresident

/-- Copies differ in their links only, which match. -/
theorem Copies.alike (h : site.Copies cell cell') :
    cell.value.Alike (site.Matches site.Copies) cell'.value := by
  obtain ⟨related, hrelated, halike⟩ := h
  refine (halike _ _ hrelated).mono fun link _ link' hmatches => ?_
  have hcopies : ∀ {a b}, related a b → site.Copies a b := fun hab => ⟨related, hab, halike⟩
  cases hmatches with
  | direct below => exact .direct (hcopies below)
  | held resident resident' below => exact .held resident resident' (hcopies below)
  | empty resident resident' => exact .empty resident resident'

/-- Where one of two matching links leads to, the other one leads to a copy. -/
theorem Matches.target (h : site.Matches site.Copies link link') {target : Cell}
    (htarget : site.Target link target) :
    ∃ target', site.Target link' target' ∧ site.Copies target target' := by
  cases h with
  | direct below =>
    rcases htarget with hresident | ⟨hresident, -⟩
    · cases hresident
      exact ⟨_, .inl rfl, below⟩
    · cases hresident
  | held resident resident' below =>
    rcases htarget with hresident | ⟨hresident, -⟩
    · rw [resident] at hresident
      cases hresident
      exact ⟨_, .inl resident', below⟩
    · rw [resident] at hresident
      cases hresident
  | empty resident resident' =>
    rcases htarget with hresident | ⟨-, hgives⟩
    · rw [resident] at hresident
      cases hresident
    · exact ⟨target, .inr ⟨resident', hgives⟩, .refl site target⟩

theorem Copies.symm (h : site.Copies cell cell') : site.Copies cell' cell := by
  obtain ⟨related, hrelated, halike⟩ := h
  refine ⟨fun a b => related b a, hrelated, fun a b hab => ?_⟩
  obtain ⟨pairs, ha, hb, hpairs⟩ := halike b a hab
  refine ⟨pairs.mapLinks Prod.swap, ?_, ?_, fun pair hpair => ?_⟩
  · rw [hb, Value.mapLinks_mapLinks]
    rfl
  · rw [ha, Value.mapLinks_mapLinks]
    rfl
  · rw [Value.links_mapLinks] at hpair
    obtain ⟨⟨link, link'⟩, hpair', rfl⟩ := List.mem_map.1 hpair
    have hmatches : site.Matches related link link' := hpairs _ hpair'
    cases hmatches with
    | direct below => exact .direct below
    | held resident resident' below => exact .held resident' resident below
    | empty resident resident' => exact .empty resident' resident

theorem Matches.symm (h : site.Matches site.Copies link link') :
    site.Matches site.Copies link' link := by
  cases h with
  | direct below => exact .direct below.symm
  | held resident resident' below => exact .held resident' resident below.symm
  | empty resident resident' => exact .empty resident' resident

/-- Copies are written alike. -/
theorem Copies.encode_eq (h : site.Copies cell cell') : cell.encode = cell'.encode := by
  induction cell using Cell.induct generalizing cell' with
  | step label value ih =>
    have halike : (Cell.mk label value).value.Alike
        (fun link link' => link'.written = link.written) cell'.value := by
      refine h.alike.mono_links fun link hlink link' _ hmatches => ?_
      cases hmatches with
      | direct below => rw [Link.written, Link.written, ih _ hlink _ rfl below]
      | held => rfl
      | empty => rfl
    exact (Cell.encode_eq_of_alike halike fun _ _ h => h).symm

/-! ### What is below copies -/

/-- A link leads to full cells only, and to one at least. -/
def FullAt (site : Site) (link : Link) : Prop :=
  (∃ target, site.Target link target) ∧ ∀ target, site.Target link target → site.Full target

theorem full_iff : site.Full cell ↔ ∀ link ∈ cell.links, site.FullAt link := by
  constructor
  · rintro ⟨leads, below⟩ link hlink
    exact ⟨leads link hlink, below link hlink⟩
  · exact fun h => .intro (fun link hlink => (h link hlink).1) fun link hlink => (h link hlink).2

/--
The first digest that is missing below a cell, its links being followed in order: everything before
is full, and a soft link of this digest holds nothing and has no entry. A link may lead to several
cells, in all of which the same is missing.
-/
inductive Lacks (site : Site) : Cell → Digest → Prop
  | here {cell : Cell} {before after : List Link} {label : Label} {digest : Digest}
    (links : cell.links = before ++ .soft label digest :: after)
    (full : ∀ link ∈ before, site.FullAt link)
    (resident : site.known.resident (.soft label digest) = none)
    (entry : site.store.find? digest = none) : Lacks site cell digest
  | deeper {cell : Cell} {before after : List Link} {link : Link} {digest : Digest}
    (links : cell.links = before ++ link :: after) (full : ∀ link ∈ before, site.FullAt link)
    (leads : ∃ target, site.Target link target)
    (lacks : ∀ target, site.Target link target → Lacks site target digest) : Lacks site cell digest

/-- The copies of a full cell are full. -/
theorem Full.copy (h : site.Full cell) (hcopies : site.Copies cell cell') : site.Full cell' := by
  induction h generalizing cell' with
  | @intro cell leads below ih =>
    obtain ⟨pairs, ha, hb, hpairs⟩ := hcopies.alike
    have hmem : ∀ link' ∈ cell'.links, ∃ link ∈ cell.links,
        site.Matches site.Copies link link' := by
      intro link' hlink'
      rw [Cell.links, hb, Value.links_mapLinks] at hlink'
      obtain ⟨pair, hpair, rfl⟩ := List.mem_map.1 hlink'
      refine ⟨pair.1, ?_, hpairs pair hpair⟩
      rw [Cell.links, ha, Value.links_mapLinks]
      exact List.mem_map_of_mem hpair
    refine .intro (fun link' hlink' => ?_) fun link' hlink' target' htarget' => ?_
    · obtain ⟨link, hlink, hmatches⟩ := hmem link' hlink'
      obtain ⟨target, htarget⟩ := leads link hlink
      obtain ⟨target', htarget', -⟩ := hmatches.target htarget
      exact ⟨target', htarget'⟩
    · obtain ⟨link, hlink, hmatches⟩ := hmem link' hlink'
      obtain ⟨target, htarget, hcopies⟩ := hmatches.symm.target htarget'
      exact ih link hlink target htarget hcopies.symm

theorem FullAt.copy (h : site.FullAt link) (hmatches : site.Matches site.Copies link link') :
    site.FullAt link' := by
  obtain ⟨⟨target, htarget⟩, hfull⟩ := h
  obtain ⟨target', htarget', -⟩ := hmatches.target htarget
  refine ⟨⟨target', htarget'⟩, fun other hother => ?_⟩
  obtain ⟨first, hfirst, hcopies⟩ := hmatches.symm.target hother
  exact (hfull first hfirst).copy hcopies.symm

/-- The links of a copy match those of the cell, place by place. -/
theorem Copies.split (h : site.Copies cell cell') {before after : List Link}
    (hlinks : cell.links = before ++ link :: after) :
    ∃ before' link' after', cell'.links = before' ++ link' :: after' ∧
      site.Matches site.Copies link link' ∧
      ∀ other' ∈ before', ∃ other ∈ before, site.Matches site.Copies other other' := by
  obtain ⟨pairs, ha, hb, hpairs⟩ := h.alike
  rw [Cell.links, ha, Value.links_mapLinks] at hlinks
  obtain ⟨first, rest, hsplit, rfl, hrest⟩ := List.map_eq_append_iff.1 hlinks
  obtain ⟨pair, last, rfl, rfl, rfl⟩ := List.map_eq_cons_iff.1 hrest
  have hmem : ∀ p ∈ first ++ pair :: last, p ∈ pairs.links := fun p hp => hsplit ▸ hp
  refine ⟨first.map Prod.snd, pair.2, last.map Prod.snd, ?_, ?_, fun other' hother' => ?_⟩
  · rw [Cell.links, hb, Value.links_mapLinks, hsplit, List.map_append, List.map_cons]
  · exact hpairs pair (hmem pair (List.mem_append_right _ (List.mem_cons_self ..)))
  · obtain ⟨p, hp, rfl⟩ := List.mem_map.1 hother'
    exact ⟨p.1, List.mem_map_of_mem hp, hpairs p (hmem p (List.mem_append_left _ hp))⟩

/-- The same is missing below a copy. -/
theorem Lacks.copy (h : site.Lacks cell digest) (hcopies : site.Copies cell cell') :
    site.Lacks cell' digest := by
  have hfull : ∀ {before before' : List Link}, (∀ link ∈ before, site.FullAt link) →
      (∀ other' ∈ before', ∃ other ∈ before, site.Matches site.Copies other other') →
      ∀ link ∈ before', site.FullAt link := by
    intro before before' full hbefore other' hother'
    obtain ⟨other, hother, hmatches⟩ := hbefore other' hother'
    exact (full other hother).copy hmatches
  induction h generalizing cell' with
  | here links full resident entry =>
    obtain ⟨before', link', after', hlinks, hmatches, hbefore⟩ := hcopies.split links
    cases hmatches with
    | held hresident =>
      rw [resident] at hresident
      cases hresident
    | empty _ resident' => exact .here hlinks (hfull full hbefore) resident' entry
  | deeper links full leads _ ih =>
    obtain ⟨before', link', after', hlinks, hmatches, hbefore⟩ := hcopies.split links
    obtain ⟨target, htarget⟩ := leads
    obtain ⟨target', htarget', -⟩ := hmatches.target htarget
    refine .deeper hlinks (hfull full hbefore) ⟨target', htarget'⟩ fun other' hother' => ?_
    obtain ⟨other, hother, hbelow⟩ := hmatches.symm.target hother'
    exact ih other hother hbelow.symm

/-- A soft link that leads somewhere holds a cell, or has an entry. -/
theorem Target.find?_ne_none {label : Label} {target : Cell}
    (h : site.Target (.soft label digest) target) (hsound : site.store.Sound)
    (hresident : site.known.resident (.soft label digest) = none) :
    site.store.find? digest ≠ none := by
  intro hentry
  rcases h with hheld | ⟨-, known, -, hread⟩
  · rw [hresident] at hheld
    cases hheld
  · obtain ⟨status, hfound⟩ := hsound.of_read hread
    rw [Link.digest, hentry] at hfound
    cases hfound

/-- Nothing is missing below a full cell. -/
theorem Full.not_lacks (h : site.Full cell) (hsound : site.store.Sound) :
    ¬site.Lacks cell digest := by
  intro hlacks
  have hlast : ∀ {cell : Cell} {before after : List Link} {link : Link}, site.Full cell →
      cell.links = before ++ link :: after → site.FullAt link := fun h hlinks =>
    full_iff.1 h _ (hlinks ▸ List.mem_append_right _ (List.mem_cons_self ..))
  induction hlacks with
  | here links _ resident entry =>
    obtain ⟨⟨target, htarget⟩, -⟩ := hlast h links
    exact htarget.find?_ne_none hsound resident entry
  | deeper links _ leads _ ih =>
    obtain ⟨target, htarget⟩ := leads
    exact ih target htarget ((hlast h links).2 target htarget)

end Site

namespace Origin

variable {origin : Origin} {held : Set Link} {site : Site} {cell cell' : Cell}

/-- A cell that a table gives is sound, and its links hold just what is inline in it. -/
theorem Inv.resident_of_gives (h : origin.Inv held site) {rows : Index Bytes Row}
    (hstore : site.store = .table rows) {key : Digest} (hgives : site.Gives key cell) :
    cell.Sound ∧ (∀ link ∈ cell.everyLink, site.known.resident link = link.inline?) ∧
      ∃ row, Index.find? key.bytes rows = some row ∧ cell.encode = row.encoding := by
  obtain ⟨known, hnext, hread⟩ := hgives
  rw [hstore, Store.read_table] at hread
  split at hread
  · cases hread
  · next row hrow =>
    split at hread
    · next found hdecode =>
      cases hread
      obtain ⟨hfrom, -⟩ := Cell.readFrom_of_decode hdecode
      refine ⟨⟨hfrom.sound, hfrom.laid.sound⟩, fun link hlink => ?_, row, hrow, hfrom.encode⟩
      cases link with
      | direct label target => exact (hfrom.laid.inline _ hlink target rfl).symm
      | soft label digest =>
        have hlabel := (hfrom.laid.within _ hlink).1
        cases hresident : site.known.resident (.soft label digest) with
        | none => rfl
        | some target =>
          refine absurd (h.coherent.kept label target hresident).1 (Nat.not_lt.2 ?_)
          exact hnext.trans ((Nat.le_add_right _ _).trans hlabel)
    · cases hread

/-- Two cells with one encoding are copies if their links hold just what is inline in them. -/
theorem copies_of_encode_eq (hcell : cell.Sound) (hcell' : cell'.Sound)
    (hresident : ∀ link ∈ cell.everyLink, site.known.resident link = link.inline?)
    (hresident' : ∀ link ∈ cell'.everyLink, site.known.resident link = link.inline?)
    (hencode : cell.encode = cell'.encode) : site.Copies cell cell' := by
  let plain (c : Cell) : Prop :=
    c.Sound ∧ ∀ link ∈ c.everyLink, site.known.resident link = link.inline?
  have hplain : ∀ {c : Cell} {link : Link} {target : Cell}, plain c → link ∈ c.links →
      link.inline? = some target → plain target := by
    intro c link target hc hlink hinline
    have ht := Link.target?_of_inline hinline
    exact ⟨hc.1.target hlink ht,
      fun other hother => hc.2 other (Cell.mem_everyLink_of_target hlink ht hother)⟩
  refine ⟨fun a b => a.encode = b.encode ∧ plain a ∧ plain b,
    ⟨hencode, ⟨hcell, hresident⟩, hcell', hresident'⟩, ?_⟩
  rintro a b ⟨hab, ha, hb⟩
  refine (Cell.alike_of_encode_eq ha.1 hb.1 hab).mono_links
    fun link hlink link' hlink' hwritten => ?_
  have hheld := ha.2 link (Cell.mem_everyLink_of_mem hlink)
  have hheld' := hb.2 link' (Cell.mem_everyLink_of_mem hlink')
  cases Link.twins hwritten with
  | @inline s t hs ht hst =>
    have hs' := hplain ha hlink hs
    have ht' := hplain hb hlink' ht
    cases link with
    | soft => cases hs
    | direct label target =>
      cases link' with
      | soft => cases ht
      | direct label' target' =>
        cases Link.target?_of_inline hs
        cases Link.target?_of_inline ht
        exact .direct ⟨hst, hs', ht'⟩
  | digest hs ht hdigest =>
    rw [hs] at hheld
    rw [ht] at hheld'
    cases link with
    | direct => cases hheld
    | soft label digest =>
      cases link' with
      | direct => cases hheld'
      | soft label' digest' =>
        obtain rfl : digest = digest' := hdigest
        exact .empty hheld hheld'

/-- What a store gives for one digest at two times are copies. -/
theorem Inv.copies_of_gives (h : origin.Inv held site) {key : Digest}
    (hgives : site.Gives key cell) (hgives' : site.Gives key cell') : site.Copies cell cell' := by
  cases hstore : site.store with
  | memory entries =>
    obtain ⟨known, -, hread⟩ := hgives
    obtain ⟨known', -, hread'⟩ := hgives'
    rw [hstore, Store.read_memory] at hread hread'
    rw [hread] at hread'
    cases hread'
    exact .refl site cell
  | table rows =>
    obtain ⟨hsound, hresident, row, hrow, hencode⟩ := h.resident_of_gives hstore hgives
    obtain ⟨hsound', hresident', row', hrow', hencode'⟩ := h.resident_of_gives hstore hgives'
    rw [hrow] at hrow'
    cases hrow'
    exact copies_of_encode_eq hsound hsound' hresident hresident' (hencode.trans hencode'.symm)

/-- A link leads to copies only. -/
theorem Inv.copies_of_target (h : origin.Inv held site) {link : Link}
    (htarget : site.Target link cell) (htarget' : site.Target link cell') :
    site.Copies cell cell' := by
  rcases htarget with hresident | ⟨hresident, hgives⟩ <;>
    rcases htarget' with hresident' | ⟨hresident', hgives'⟩
  · rw [hresident] at hresident'
    cases hresident'
    exact .refl site cell
  · rw [hresident] at hresident'
    cases hresident'
  · rw [hresident] at hresident'
    cases hresident'
  · exact h.copies_of_gives hgives hgives'

end Origin

end CellGraph
