import CellGraph.Proofs.Store.Copies
import CellGraph.Proofs.Walk.CourseRun

/-!
# Checking that nothing is missing

A check follows every link below a cell, in order and at every depth, and counts the cells that it
meets. If it succeeds, the cell is full, and the count is the number of cells in its expansion. If
it fails, then because of the first digest that is missing below the cell, or some encoding depends
on itself.

* `Link.countBelow`, `Cell.countLinks_mk`: counting, link by link;
* `Site.Consulted`: sites on which nothing has been done but to read the store;
* `Site.Counted`, `Origin.Misses`: what a check may find, and how it may fail;
* `Origin.guards_checkComplete`: whole checks.
-/

namespace CellGraph

open StoreAction

/-- Count what is below a link. -/
def Link.countBelow (follow : Cell → StoreAction Nat) : Link → StoreAction Nat
  | .direct _ target => target.countLinks follow
  | .soft label digest => do follow (← StoreAction.resolve (.soft label digest))

/-- The links of a cell are followed one after the other. -/
theorem Cell.countLinks_mk (follow : Cell → StoreAction Nat) (label : Label) (value : Value Link) :
    Cell.countLinks follow (.mk label value) =
      value.links.foldlM (fun total link => return total + (← link.countBelow follow)) 1 := by
  rw [Cell.countLinks, Cell.fold_mk, Value.links_mapLinks, List.foldlM_map]
  congr 1
  funext total link
  cases link with
  | soft label digest =>
    rw [Link.fold_soft]
    rfl
  | direct label target =>
    rw [Link.fold_direct]
    rfl

namespace Site

/-- Nothing has been done since the start but to read the store. -/
abbrev Consulted (encodings : Set Bytes) (start site : Site) : Prop :=
  Site.Trace encodings start .unknown ∅ site

/-- A full cell, with the number of the cells in its expansion. -/
structure Counted (site : Site) (cell : Cell) (count : Nat) : Prop where
  full : site.Full cell
  count : ∀ whole, site.Expands cell whole → count = whole.everyLink.length + 1

/-- Links that lead to full cells, with the number of the cells in their expansions, and one. -/
structure Summed (site : Site) (links : List Link) (total : Nat) : Prop where
  full : ∀ link ∈ links, site.FullAt link
  total : ∀ triples : List (Link × Cell × Cell), triples.map Prod.fst = links →
    (∀ triple ∈ triples, site.Target triple.1 triple.2.1 ∧ site.Expands triple.2.1 triple.2.2) →
    total = (triples.map fun triple => triple.2.2.everyLink.length + 1).sum + 1

theorem Summed.nil (site : Site) : site.Summed [] 1 := by
  refine ⟨nofun, fun triples htriples _ => ?_⟩
  rw [List.map_eq_nil_iff.1 htriples]
  rfl

/-- A cell has been counted when all its links have been. -/
theorem Summed.counted {site : Site} {cell : Cell} {count : Nat}
    (h : site.Summed cell.links count) : site.Counted cell count := by
  refine ⟨full_iff.2 h.full, fun whole hwhole => ?_⟩
  obtain ⟨label, triples, targets, below⟩ := hwhole
  have hlinks : triples.links.map Prod.fst = (Cell.mk label (triples.mapLinks Prod.fst)).links := by
    rw [Cell.links, Cell.value, Value.links_mapLinks]
  rw [h.total triples.links hlinks fun triple htriple =>
    ⟨targets triple htriple, below triple htriple⟩, Cell.everyLink_mk, Value.links_mapLinks,
    List.length_flatMap, List.map_map]
  rfl

end Site

namespace Origin

variable {origin : Origin} {held held₀ : Set Link} {start : Site} {hops : Nat} {cell : Cell}
  {link : Link} {follow : Cell → StoreAction Nat}

/-- What the encoding of a cell depends on. -/
def under (origin : Origin) (top : Cell) : Set Bytes :=
  {encoding | Depends origin.encodings top.encode encoding}

/--
A cell that is met in a check, with so many hops left. All that it refers to is under the cell at
the top.
-/
structure Ready (origin : Origin) (held : Set Link) (start : Site) (top : Cell) (hops : Nat)
    (cell : Cell) : Prop where
  meets : Meets held start cell
  under : ∀ encoding, Refers origin.encodings cell.encode encoding → encoding ∈ origin.under top
  room : Trail.Room (origin.under top) start.stops hops cell

/-- Something is missing below a cell, or some encoding under the top depends on itself. -/
def Misses (origin : Origin) (start : Site) (top cell : Cell) (fault : StoreFault) : Prop :=
  (∃ digest, fault = .cell (.missingData digest) ∧ start.Lacks cell digest) ∨
    fault = .endlessLinks ∧
      ∃ encoding ∈ origin.under top, Depends origin.encodings encoding encoding

/-- Something is missing where a link leads, or the link itself leads nowhere. -/
def MissesAt (origin : Origin) (start : Site) (top : Cell) (link : Link) (fault : StoreFault) :
    Prop :=
  (∃ target, start.Target link target ∧ origin.Misses start top target fault) ∨
    ∃ label digest, link = .soft label digest ∧ fault = .cell (.missingData digest) ∧
      start.known.resident link = none ∧ start.store.find? digest = none

/-- Where one link of a cell misses something, the cell does, if all is there before that. -/
theorem MissesAt.misses (h₀ : origin.Inv held₀ start) {top : Cell} {fault : StoreFault}
    (h : origin.MissesAt start top link fault) {before after : List Link}
    (hlinks : cell.links = before ++ link :: after) (hfull : ∀ other ∈ before, start.FullAt other) :
    origin.Misses start top cell fault := by
  rcases h with ⟨target, hleads, ⟨digest, rfl, hlacks⟩ | hendless⟩ |
    ⟨label, digest, rfl, rfl, hresident, hentry⟩
  · exact .inl ⟨digest, rfl, .deeper hlinks hfull ⟨target, hleads⟩ fun _ hleads' =>
      hlacks.copy (h₀.copies_of_target hleads hleads')⟩
  · exact .inr hendless
  · exact .inl ⟨digest, rfl, .here hlinks hfull hresident hentry⟩

/-! ### Counting keeps the law -/

/-- Counting keeps the law, whichever cell it is, as long as all links below it are in use. -/
def Tallies (origin : Origin) (held : Set Link) (follow : Cell → StoreAction Nat) : Prop :=
  ∀ held' (target : Cell), held ⊆ held' → target.Within origin.Covers held' →
    origin.law.Keeps held' (fun _ => True) (follow target) fun _ _ _ => True

theorem Tallies.mono {held' : Set Link} (h : origin.Tallies held follow) (hsub : held ⊆ held') :
    origin.Tallies held' follow :=
  fun held'' target hsub' => h held'' target (hsub.trans hsub')

theorem keeps_countBelow (hfollow : origin.Tallies held follow) (hlink : link ∈ held)
    (htarget : ∀ target, link.target? = some target → target.Within origin.Covers held →
      origin.law.Keeps held (fun _ => True) (target.countLinks follow) fun _ _ _ => True) :
    origin.law.Keeps held (fun _ => True) (link.countBelow follow) fun _ _ _ => True := by
  cases link with
  | soft label digest =>
    exact (keeps_resolve hlink).bind fun target held' hsub => .mono_left (.assume fun hwithin =>
      hfollow held' target hsub hwithin) fun _ _ h => h.1.1
  | direct label target =>
    refine .from_state fun site hinv _ => ?_
    exact (htarget target rfl (hinv.coherent.target _ hlink target rfl)).of_always

theorem tallies_countLinks (hfollow : origin.Tallies held follow) :
    origin.Tallies held (Cell.countLinks follow) := by
  intro held' cell hsub hcell
  induction cell using Cell.induct generalizing held' with
  | step label value ih =>
    rw [Cell.countLinks_mk]
    refine .foldlM (fun link hlink total held₁ hsub₁ => ?_) 1
    have hlink₁ := hsub₁ (hcell.links link (Cell.mem_everyLink_of_mem hlink))
    have hsub₂ := hsub.trans hsub₁
    exact (keeps_countBelow (hfollow.mono hsub₂) hlink₁ fun target ht hwithin =>
      ih link hlink target ht held₁ hsub₂ hwithin).bind fun _ _ _ => .pure fun _ _ _ => trivial

theorem Tallies.countBelow (h : origin.Tallies held follow) (hlink : link ∈ held) :
    origin.law.Keeps held (fun _ => True) (link.countBelow follow) fun _ _ _ => True :=
  keeps_countBelow h hlink fun target _ hwithin =>
    tallies_countLinks h held target subset_rfl hwithin

theorem tallies_countWithin (hops : Nat) : origin.Tallies held (Cell.countWithin hops) := by
  induction hops with
  | zero => exact fun _ _ _ _ => .throw _
  | succ hops ih => exact tallies_countLinks ih

/-! ### What a check finds -/

/-- Where nothing has been written, nothing is reported. -/
theorem not_novel_of_consulted {site : Site} (h : start.Consulted origin.encodings site)
    (key : Digest) : key ∉ site.novel := by
  intro hkey
  obtain ⟨_, hwritten, -⟩ := h.novel key hkey
  exact hwritten

variable (origin) in
/-- A soft link is followed as it could be at the start. -/
theorem guards_consult (hsound : start.store.Sound) {label : Label} {digest : Digest}
    (hlink : .soft label digest ∈ held) :
    origin.law.Guards held (start.Consulted origin.encodings)
      (StoreAction.resolve (.soft label digest))
      (fun target site => start.Consulted origin.encodings site ∧
        start.Target (.soft label digest) target ∧ target.encode ∈ start.stops)
      fun fault _ => fault = .cell (.missingData digest) ∧
        start.known.resident (.soft label digest) = none ∧ start.store.find? digest = none := by
  refine .from_state fun site hinv htrace => ?_
  cases hresident : site.known.resident (.soft label digest) with
  | some target =>
    have hdigest := hinv.coherent.digest _ hlink target hresident
    rintro _ _ rfl
    rw [run_resolve_of_resident hresident]
    exact ⟨htrace, htrace.of_resident hresident hdigest, htrace.mem_stops hsound hresident⟩
  | none =>
    exact (Plan.guards_resolve hsound fun _ htrace' hresident' hentry =>
      ⟨rfl, htrace'.moves.resident_eq_none hresident',
        htrace'.moves.store.find?_eq_none hentry⟩).at_state
          ⟨⟨htrace, hresident⟩, not_novel_of_consulted htrace digest⟩

/-! ### Cells that are met -/

section

variable {top target : Cell} (h₀ : origin.Inv held₀ start)

include h₀

omit h₀ in
theorem ready_top (htop : Meets held₀ start top) (hhops : start.stops.length < hops) :
    origin.Ready held₀ start top hops top :=
  ⟨htop, fun _ hrefers => .single hrefers, .nil hhops⟩

/-- A cell that another one holds is met with as many hops left. -/
theorem Ready.child (h : origin.Ready held₀ start top hops cell) (hlink : link ∈ cell.links)
    (htarget : start.Target link target) : origin.Ready held₀ start top hops target := by
  obtain ⟨hmeets, hencloses⟩ := h.meets.encloses h₀ ⟨link, hlink, htarget⟩
  refine ⟨hmeets, fun _ hrefers => hencloses.depends h.under hrefers, h.room.child ?_⟩
  exact hencloses.imp_right fun hrefers => ⟨h.under _ hrefers, hrefers.2⟩

/-- A cell to which a soft link leads is met with one hop less. -/
theorem Ready.hop (h : origin.Ready held₀ start top (hops + 1) cell) (hlink : link ∈ cell.links)
    (htarget : start.Target link target) (hinline : link.inline? = none)
    (hstop : target.encode ∈ start.stops) : origin.Ready held₀ start top hops target := by
  obtain ⟨hmeets, -, hplace⟩ := h.meets.child_of_target h₀ hlink htarget
  rcases hplace with hsome | ⟨-, hrefers⟩
  · rw [hinline] at hsome
    cases hsome
  · exact ⟨hmeets, fun _ hbelow => .tail (h.under _ hrefers) hbelow,
      h.room.follow ⟨h.under _ hrefers, hrefers.2⟩ hstop⟩

omit h₀ in
/-- Where no hops are left, links have led round in a circle. -/
theorem Ready.endless (h : origin.Ready held₀ start top 0 cell) :
    origin.Misses start top cell .endlessLinks := by
  obtain ⟨encoding, -, hdepends⟩ := h.room.exists_depends_self
  exact .inr ⟨rfl, encoding, Depends.mem hdepends,
    Depends.mono hdepends fun _ hmem => Depends.mem hmem⟩

/-! ### Counting -/

/-- A count of whichever cell it is that can be met finds what is below it, or what is missing. -/
def CountsRight (origin : Origin) (held₀ : Set Link) (start : Site) (top : Cell) (hops : Nat)
    (held : Set Link) (follow : Cell → StoreAction Nat) : Prop :=
  ∀ held' (target : Cell), held ⊆ held' → target.Within origin.Covers held' →
    origin.Ready held₀ start top hops target →
    origin.law.Guards held' (start.Consulted origin.encodings) (follow target)
      (fun count site => start.Consulted origin.encodings site ∧ start.Counted target count)
      fun fault _ => origin.Misses start top target fault

omit h₀ in
theorem CountsRight.mono {held' : Set Link}
    (h : origin.CountsRight held₀ start top hops held follow) (hsub : held ⊆ held') :
    origin.CountsRight held₀ start top hops held' follow :=
  fun held'' target hsub' => h held'' target (hsub.trans hsub')

/-- One link: what it leads to is counted, or something is missing there. -/
theorem guards_countBelow (hfollow : origin.CountsRight held₀ start top hops held follow)
    (hready : origin.Ready held₀ start top (hops + 1) cell) (hlink : link ∈ cell.links)
    (hheld : link ∈ held)
    (hdirect : ∀ target, link.target? = some target → target.Within origin.Covers held →
      origin.Ready held₀ start top (hops + 1) target →
      origin.law.Guards held (start.Consulted origin.encodings) (target.countLinks follow)
        (fun count site => start.Consulted origin.encodings site ∧ start.Counted target count)
        fun fault _ => origin.Misses start top target fault) :
    origin.law.Guards held (start.Consulted origin.encodings) (link.countBelow follow)
      (fun count site => start.Consulted origin.encodings site ∧
        ∃ target, start.Target link target ∧ start.Counted target count)
      fun fault _ => origin.MissesAt start top link fault := by
  cases link with
  | soft label digest =>
    refine .bind (keeps_resolve hheld).of_always
      ((guards_consult origin h₀.store hheld).mono_fails fun fault _ h =>
        .inr ⟨label, digest, rfl, h⟩) fun target held' hsub => .from_state fun site _ hsite => ?_
    obtain ⟨⟨⟨hwithin, -⟩, -⟩, hconsulted, hleads, hstop⟩ := hsite
    have hbelow := hfollow held' target hsub hwithin (hready.hop h₀ hlink hleads rfl hstop)
    refine ((hbelow.mono (fun _ _ h => h) fun count site' h => ?_).mono_fails
      fun fault _ h => ?_).at_state hconsulted
    · exact ⟨h.1, target, hleads, h.2⟩
    · exact .inl ⟨target, hleads, h⟩
  | direct label target =>
    refine .from_state fun site hinv hconsulted => ?_
    have hleads : start.Target (.direct label target) target := .inl rfl
    have hbelow := hdirect target rfl (hinv.coherent.target _ hheld target rfl)
      (hready.child h₀ hlink hleads)
    refine ((hbelow.mono (fun _ _ h => h) fun count site' h => ?_).mono_fails
      fun fault _ h => ?_).at_state hconsulted
    · exact ⟨h.1, target, hleads, h.2⟩
    · exact .inl ⟨target, hleads, h⟩

/-- One more link has been counted. -/
theorem summed_append (hinj : Set.InjOn Digest.of origin.encodings) (hcell : Meets held₀ start cell)
    {before : List Link} {total count : Nat} (hbefore : start.Summed before total)
    (hlink : link ∈ cell.links) (hleads : start.Target link target)
    (hcount : start.Counted target count) : start.Summed (before ++ [link]) (total + count) := by
  refine ⟨fun other hother => ?_, fun triples htriples hexpands => ?_⟩
  · rcases List.mem_append.1 hother with hother | hother
    · exact hbefore.full other hother
    · obtain rfl := List.mem_singleton.1 hother
      exact ⟨⟨target, hleads⟩, fun _ hleads' =>
        hcount.full.copy (h₀.copies_of_target hleads hleads')⟩
  · obtain ⟨first, last, rfl, rfl, hlast⟩ := List.map_eq_append_iff.1 htriples
    obtain ⟨triple, rest, rfl, rfl, hrest⟩ := List.map_eq_cons_iff.1 hlast
    obtain rfl := List.map_eq_nil_iff.1 hrest
    have htotal := hbefore.total first rfl fun other hother =>
      hexpands other (List.mem_append_left _ hother)
    obtain ⟨hleads', hexpands'⟩ := hexpands triple (List.mem_append_right _ (.head _))
    -- The link may lead to another cell there, but both have the same expansion.
    obtain ⟨whole, hwhole⟩ := hcount.full.exists_expands
    have hmeets := (hcell.child_of_target h₀ hlink hleads).1
    have hmeets' := (hcell.child_of_target h₀ hlink hleads').1
    have hsame : whole = triple.2.2 := hmeets.expansion_eq h₀ h₀ rfl hinj hmeets'
      (h₀.copies_of_target hleads hleads').encode_eq hwhole hexpands'
    rw [List.map_append, List.sum_append, List.map_singleton, List.sum_singleton, htotal,
      hcount.count whole hwhole, hsame]
    omega

theorem countsRight_countLinks (hinj : Set.InjOn Digest.of origin.encodings)
    (htallies : origin.Tallies held follow)
    (hfollow : origin.CountsRight held₀ start top hops held follow) :
    origin.CountsRight held₀ start top (hops + 1) held (Cell.countLinks follow) := by
  intro held' cell hsub hcell hready
  -- The induction is on the cell, as the count is: what it holds is counted with it.
  induction cell using Cell.induct generalizing held' with
  | step label value ih =>
    rw [Cell.countLinks_mk]
    have hheld : ∀ held₁, held' ⊆ held₁ → ∀ link ∈ value.links, link ∈ held₁ :=
      fun held₁ hsub₁ link hlink => hsub₁ (hcell.links link (Cell.mem_everyLink_of_mem hlink))
    have hkeeps : ∀ link ∈ value.links, ∀ (total : Nat) held₁, held' ⊆ held₁ →
        origin.law.Keeps held₁ (fun _ => True)
          (do return total + (← link.countBelow follow)) fun _ _ _ => True :=
      fun link hlink total held₁ hsub₁ =>
        ((htallies.mono (hsub.trans hsub₁)).countBelow (hheld held₁ hsub₁ link hlink)).bind
          fun _ _ _ => .pure fun _ _ _ => trivial
    have hstep : ∀ before link after, value.links = before ++ link :: after →
        ∀ total, start.Summed before total → ∀ held₁, held' ⊆ held₁ →
        origin.law.Guards held₁ (start.Consulted origin.encodings)
          (do return total + (← link.countBelow follow))
          (fun total' site => start.Consulted origin.encodings site ∧
            start.Summed (before ++ [link]) total')
          fun fault _ => origin.Misses start top (.mk label value) fault := by
      intro before link after hlinks total hbefore held₁ hsub₁
      have hlink : link ∈ value.links := hlinks ▸ List.mem_append_right _ (.head _)
      have hheld₁ := hheld held₁ hsub₁ link hlink
      have hguards := guards_countBelow h₀ (hfollow.mono (hsub.trans hsub₁)) hready hlink hheld₁
        fun target ht hwithin hbelow =>
          ih link hlink target ht held₁ (hsub.trans hsub₁) hwithin hbelow
      refine .bind ((htallies.mono (hsub.trans hsub₁)).countBelow hheld₁).of_always
        (hguards.mono_fails fun fault _ h => h.misses h₀ hlinks hbefore.full)
        fun count held₂ _ => .pure fun site _ hsite => ?_
      obtain ⟨-, hconsulted, target, hleads, hcount⟩ := hsite
      exact ⟨hconsulted, summed_append h₀ hinj hready.meets hbefore hlink hleads hcount⟩
    exact (Law.Guards.foldlM hkeeps hstep (.nil start)).mono (fun _ _ h => h)
      fun count site h => ⟨h.1, h.2.counted⟩

theorem countsRight_countWithin (hinj : Set.InjOn Digest.of origin.encodings) (hops : Nat) :
    origin.CountsRight held₀ start top hops held (Cell.countWithin hops) := by
  induction hops with
  | zero => exact fun _ _ _ _ hready => .throw fun _ _ _ => hready.endless
  | succ hops ih => exact countsRight_countLinks h₀ hinj (tallies_countWithin hops) ih

/-! ### Whole checks -/

/-- A check of a cell, from the site where it starts. -/
theorem guards_checkComplete (hinj : Set.InjOn Digest.of origin.encodings)
    (hstart : start.Consulted origin.encodings start) (hcell : cell.Within origin.Covers held₀) :
    origin.law.Guards held₀ (fun site => site = start) (checkComplete cell)
      (fun count site => start.Consulted origin.encodings site ∧ start.Counted cell count)
      fun fault _ => origin.Misses start cell cell fault := by
  refine .get_bind fun site _ hsite => ?_
  obtain rfl : site = start := hsite
  exact (countsRight_countWithin h₀ hinj (hopLimit site) held₀ cell subset_rfl hcell
    (ready_top (h₀.meets_of_within hcell) site.stops_lt_hopLimit)).at_state hstart

/-- A check of a full cell succeeds, unless some encoding under the cell depends on itself. -/
theorem exists_count (hinj : Set.InjOn Digest.of origin.encodings)
    (hstart : start.Consulted origin.encodings start) (hcell : cell.Within origin.Covers held₀)
    (hfull : start.Full cell)
    (hacyclic : ∀ encoding ∈ origin.under cell, ¬Depends origin.encodings encoding encoding) :
    ∃ count site, (checkComplete cell).run.run start = (.ok count, site) ∧
      start.Counted cell count := by
  have hend := guards_checkComplete h₀ hinj hstart hcell start h₀ rfl
  rcases hrun : (checkComplete cell).run.run start with ⟨fault | count, site⟩ <;> rw [hrun] at hend
  · rcases hend with ⟨digest, -, hlacks⟩ | ⟨-, encoding, hunder, hdepends⟩
    · exact absurd hlacks (hfull.not_lacks h₀.store)
    · exact absurd hdepends (hacyclic encoding hunder)
  · exact ⟨count, site, rfl, hend.2⟩

end

end Origin

end CellGraph
