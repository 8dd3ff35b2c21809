import CellGraph.Proofs.Session.Chronicle
import CellGraph.Proofs.Store.References

/-!
# Lookups that check what is below a cell

A lookup may be told to check as well that every cell below the one that is found can be had. Then
a cell that is given has all that it refers to, at every depth; but not always in the store. A link
that holds a cell need not be looked up, and a memory store gives back cells whose links hold what
they held when the cells were put there. The cells that a table gives hold nothing but what is
written inline.

* `Site.LookedUp`: sites on which nothing has been done since but to look up links;
* `Site.Found`: cells below which every link leads somewhere;
* `Deposits.guards_countWithin`: a check that succeeds has followed every link;
* `Site.Checked`, `Site.Checked.below`: cells that a memory store gave, after a check, and all that is
  below these;
* `Site.Stocked`, `Site.Stocked.below`: the same for cells that a table gave;
* `Chronicle.Reached.validated`: what there is below a cell that is given.
-/

namespace CellGraph

open StoreAction

namespace Site

/-- Nothing has been done since the start but to look up links. -/
structure LookedUp (start site : Site) : Prop where
  store : site.store = start.store
  grows : start.known.Grows site.known
  kept : ∀ (label : Label) (cell : Cell), site.known.kept[label]? = some cell →
    start.known.kept[label]? = some cell ∨ start.Gives cell.digest cell

/-- Every link below a cell leads to some cell. -/
inductive Found (site : Site) : Cell → Prop
  | intro {cell : Cell} (target : Link → Cell)
    (leads : ∀ link ∈ cell.links, site.Target link (target link))
    (below : ∀ link ∈ cell.links, Found site (target link)) : Found site cell

/-- Every one of these links leads to a cell below which every link leads to some cell. -/
def FoundBelow (site : Site) (links : List Link) : Prop :=
  ∀ link ∈ links, ∃ target, site.Target link target ∧ site.Found target

variable {start site : Site} {link : Link} {cell target : Cell} {key : Digest}

theorem FoundBelow.found (h : site.FoundBelow cell.links) : site.Found cell := by
  choose! target htarget using h
  exact .intro target (fun link hlink => (htarget link hlink).1)
    fun link hlink => (htarget link hlink).2

theorem Found.foundBelow (h : site.Found cell) : site.FoundBelow cell.links := by
  obtain ⟨target, hleads, hbelow⟩ := h
  exact fun link hlink => ⟨target link, hleads link hlink, hbelow link hlink⟩

namespace LookedUp

theorem refl (site : Site) : site.LookedUp site := ⟨rfl, .refl _, fun _ _ h => .inl h⟩

/-- Nothing new is held after notes have been made, and labels used. -/
theorem note (h : start.LookedUp site) {next : Label} {noted : Knowledge}
    (hnext : site.known.next ≤ next) (hnotes : Knowledge.Notes { site.known with next } noted) :
    start.LookedUp { site with known := noted } := by
  refine ⟨h.store, h.grows.trans ?_, fun label cell hcell => h.kept label cell ?_⟩
  · exact (Knowledge.Learns.of_next hnext).toGrows.trans hnotes.learns.toGrows
  · rw [← hcell]
    exact congrArg (·[label]?) hnotes.kept.symm

theorem advance (h : start.LookedUp site) (link : Link) (status : Status) :
    start.LookedUp { site with known := site.known.advance link status } :=
  ⟨h.store, h.grows.trans (.advance ..), h.kept⟩

/-- A soft link comes to hold what the store gives. -/
theorem keep (h : start.LookedUp site) (link : Link) (hgives : start.Gives cell.digest cell) :
    start.LookedUp { site with known := site.known.keep link cell } := by
  refine ⟨h.store, h.grows.trans (Knowledge.Learns.keep ..).toGrows, fun label other hother => ?_⟩
  change (site.known.keep link cell).kept[label]? = some other at hother
  rw [Knowledge.kept_keep] at hother
  split at hother
  · cases hother
    exact .inr hgives
  · exact h.kept label other hother

/-- What the store gives now it would have given at the start. -/
theorem gives (h : start.LookedUp site) (hgives : site.Gives key cell) : start.Gives key cell := by
  obtain ⟨known, hnext, hread⟩ := hgives
  exact ⟨known, h.grows.next.trans hnext, h.store ▸ hread⟩

theorem trans (h : start.LookedUp site) {site' : Site} (h' : site.LookedUp site') :
    start.LookedUp site' := by
  refine ⟨h'.store.trans h.store, h.grows.trans h'.grows, fun label cell hcell => ?_⟩
  rcases h'.kept label cell hcell with hkept | hgives
  · exact h.kept label cell hkept
  · exact .inr (h.gives hgives)

/-- A link that holds a cell of its digest could have led to that at the start. -/
theorem target_of_resident (h : start.LookedUp site)
    (hresident : site.known.resident link = some target) (hdigest : target.digest = link.digest) :
    start.Target link target := by
  cases hstart : start.known.resident link with
  | some other =>
    have hother : site.known.resident link = some other := h.grows.resident hstart
    rw [hresident] at hother
    exact .inl (hother ▸ hstart)
  | none =>
    cases link with
    | direct label direct => cases hstart
    | soft label digest =>
      rcases h.kept label target hresident with hkept | hgives
      · have hkept' : start.known.resident (.soft label digest) = some target := hkept
        rw [hstart] at hkept'
        cases hkept'
      · exact .inr ⟨hstart, hdigest ▸ hgives⟩

/-- Where a link leads now, it could have led at the start. -/
theorem target_of_target (h : start.LookedUp site)
    (hdigest : site.known.resident link = some target → target.digest = link.digest)
    (htarget : site.Target link target) : start.Target link target := by
  rcases htarget with hresident | ⟨hresident, hgives⟩
  · exact h.target_of_resident hresident (hdigest hresident)
  · refine .inr ⟨?_, h.gives hgives⟩
    cases hstart : start.known.resident link with
    | none => rfl
    | some other =>
      rw [h.grows.resident hstart] at hresident
      cases hresident

/-- A link that has an entry, or held a cell at the start, can be followed. -/
theorem exists_target (h : start.LookedUp site) (hkeyed : start.store.Keyed)
    (hlink : (start.store.find? link.digest).isSome ∨ (start.known.resident link).isSome) :
    ∃ target, site.Target link target := by
  cases hresident : site.known.resident link with
  | some held => exact ⟨held, .inl hresident⟩
  | none =>
    rw [h.grows.resident_eq_none hresident, Option.isSome_none, or_iff_left Bool.false_ne_true]
      at hlink
    obtain ⟨entry, hentry⟩ := Option.isSome_iff_exists.1 hlink
    obtain ⟨found, hfound, -⟩ := hkeyed.exists_read hentry site.known
    exact ⟨found, .inr ⟨hresident, site.known, le_rfl, h.store ▸ hfound⟩⟩

end LookedUp

end Site

/-! ### Checks -/

namespace Deposits

variable {allowed : Status → Prop} {held : Set Link} {start : Site}

/-- A link is followed to where it could have led at the start. -/
theorem guards_resolve (hkeyed : start.store.Keyed) {link : Link} (hlink : link ∈ held) :
    (law allowed).Guards held start.LookedUp (StoreAction.resolve link)
      (fun target site => start.LookedUp site ∧ start.Target link target) fun _ _ => True := by
  intro site hinv hlooked
  have hkeyed' : site.store.Keyed := hlooked.store ▸ hkeyed
  cases hresident : site.known.resident link with
  | some target =>
    rw [run_resolve_of_resident hresident]
    exact ⟨hlooked, hlooked.target_of_resident hresident (hinv.1.digest link hlink _ hresident)⟩
  | none =>
    cases hentry : site.store.find? link.digest with
    | none =>
      obtain ⟨next, noted, -, -, hrun⟩ := run_resolve_of_none hkeyed' hresident hentry
      rw [hrun]
      trivial
    | some entry =>
      obtain ⟨target, next, noted, hnext, hnotes, hread, hrun⟩ :=
        run_resolve_of_some hkeyed' hresident hentry
      obtain ⟨status, hfound⟩ := hkeyed'.of_read hread
      have hdigest : link.digest = target.digest := hkeyed'.key _ _ _ hfound
      have hgives : start.Gives link.digest target := hlooked.gives ⟨site.known, le_rfl, hread⟩
      have hnoted := hlooked.note hnext hnotes
      rw [hrun]
      refine ⟨?_, .inr ⟨hlooked.grows.resident_eq_none hresident, hgives⟩⟩
      split
      · exact hnoted.advance link .verified
      · exact (hnoted.keep link (hdigest ▸ hgives)).advance link .verified

/-- A count of what is below one link has followed the link. -/
theorem guards_countBelow (hkeyed : start.store.Keyed) {hops : Nat} {link : Link}
    (hlink : link ∈ held)
    (hdirect : ∀ target, link.target? = some target → target.Usable held →
      (law allowed).Guards held start.LookedUp (target.countWithin (hops + 1))
        (fun _ site => start.LookedUp site ∧ start.Found target) fun _ _ => True)
    (hsoft : ∀ held' (target : Cell), target.Usable held' →
      (law allowed).Guards held' start.LookedUp (target.countWithin hops)
        (fun _ site => start.LookedUp site ∧ start.Found target) fun _ _ => True) :
    (law allowed).Guards held start.LookedUp (link.countBelow (Cell.countWithin hops))
      (fun _ site => start.LookedUp site ∧ start.FoundBelow [link]) fun _ _ => True := by
  have hone : ∀ target, start.Target link target → start.Found target → start.FoundBelow [link] :=
    fun target hleads hfound => List.forall_mem_singleton.2 ⟨target, hleads, hfound⟩
  cases link with
  | direct label target =>
    refine .from_state fun site hinv hlooked => ?_
    exact ((hdirect target rfl (hinv.1.target _ hlink target rfl)).mono (fun _ _ h => h)
      fun _ _ h => ⟨h.1, hone target (.inl rfl) h.2⟩).at_state hlooked
  | soft label digest =>
    refine .bind ((craft allowed).keeps_resolve hlink).of_always (guards_resolve hkeyed hlink)
      fun target held' _ => .from_state fun site _ hsite => ?_
    obtain ⟨husable, hlooked, hleads⟩ := hsite
    exact ((hsoft held' target husable).mono (fun _ _ h => h)
      fun _ _ h => ⟨h.1, hone target hleads h.2⟩).at_state hlooked

/-- A count that comes to an end has followed every link below the cell. -/
theorem guards_countWithin (hkeyed : start.store.Keyed) (hops : Nat) :
    ∀ {held : Set Link} {cell : Cell}, cell.Usable held →
      (law allowed).Guards held start.LookedUp (cell.countWithin hops)
        (fun _ site => start.LookedUp site ∧ start.Found cell) fun _ _ => True := by
  induction hops with
  | zero => exact fun _ => .throw fun _ _ _ => trivial
  | succ hops ih =>
    intro held cell hcell
    show (law allowed).Guards held _ (Cell.countLinks (Cell.countWithin hops) cell) _ _
    -- As in the count, the induction is on the cell, and on the hops where a soft link is followed.
    induction cell using Cell.induct generalizing held with
    | step label value ihCell =>
      rw [Cell.countLinks_mk]
      have hheld : ∀ held₁, held ⊆ held₁ → ∀ link ∈ value.links, link ∈ held₁ :=
        fun held₁ hsub₁ link hlink => hsub₁ (hcell.links link (Cell.mem_everyLink_of_mem hlink))
      have hkeeps : ∀ link ∈ value.links, ∀ (total : Nat) (held₁ : Set Link), held ⊆ held₁ →
          (law allowed).Keeps held₁ (fun _ => True)
            (do return total + (← link.countBelow (Cell.countWithin hops))) fun _ _ _ => True :=
        fun link hlink total held₁ hsub₁ =>
          ((craft allowed).keeps_countBelow hops (hheld held₁ hsub₁ link hlink)).bind
            fun _ _ _ => .pure fun _ _ _ => trivial
      have hstep : ∀ before link after, value.links = before ++ link :: after →
          ∀ total, start.FoundBelow before → ∀ held₁, held ⊆ held₁ →
          (law allowed).Guards held₁ start.LookedUp
            (do return total + (← link.countBelow (Cell.countWithin hops)))
            (fun _ site => start.LookedUp site ∧ start.FoundBelow (before ++ [link]))
            fun _ _ => True := by
        intro before link after hlinks total hbefore held₁ hsub₁
        have hlink : link ∈ value.links := hlinks ▸ List.mem_append_right _ (.head _)
        have hheld₁ := hheld held₁ hsub₁ link hlink
        refine .bind ((craft allowed).keeps_countBelow hops hheld₁).of_always
          (guards_countBelow hkeyed hheld₁ (fun target ht => ihCell link hlink target ht)
            fun held' target => ih) fun count held₂ _ => .pure fun site _ hsite => ?_
        exact ⟨hsite.2.1, List.forall_mem_append.2 ⟨hbefore, hsite.2.2⟩⟩
      exact (Law.Guards.foldlM hkeeps hstep nofun).mono (fun _ _ h => h)
        fun _ _ h => ⟨h.1, h.2.found⟩

theorem guards_checkComplete (hkeyed : start.store.Keyed) {cell : Cell} (hcell : cell.Usable held) :
    (law allowed).Guards held start.LookedUp (checkComplete cell)
      (fun _ site => start.LookedUp site ∧ start.Found cell) fun _ _ => True :=
  .get_bind fun site _ hlooked => (guards_countWithin hkeyed (hopLimit site) hcell).at_state hlooked

end Deposits

namespace Site

variable {start site : Site} {held : Set Link} {link : Link} {cell other : Cell} {key : Digest}

/-- A check has succeeded. Every link below the cell is in use, and could be followed at the start. -/
structure Checked (start : Site) (held : Set Link) (site : Site) (cell : Cell) : Prop where
  lookedUp : start.LookedUp site
  found : start.Found cell
  links : ∀ link ∈ cell.everyLink, link ∈ held
  coherent : Coherent (·.value.Sound) held site.known
  remembers : ∀ cell, site.store.Remembers cell → cell.Usable held

/-! ### Cells that a table gives -/

/-- A sound cell that holds just what is inline in it, and whose links nobody has used. -/
structure Anew (site : Site) (cell : Cell) : Prop where
  sound : cell.Sound
  label : ∀ link ∈ cell.everyLink, site.known.next ≤ link.label
  inline : ∀ link ∈ cell.everyLink, ∀ t, link.target? = some t → link.inline? = some t

theorem Anew.direct (h : site.Anew cell) {label : Label}
    (hlink : .direct label other ∈ cell.links) : site.Anew other := by
  have hevery := Cell.mem_everyLink_of_mem hlink
  have hbelow : ∀ link ∈ other.everyLink, link ∈ cell.everyLink :=
    fun link hmem => Cell.mem_everyLink_trans hevery rfl hmem
  exact ⟨h.sound.target hlink rfl, fun link hmem => h.label link (hbelow link hmem),
    fun link hmem => h.inline link (hbelow link hmem)⟩

/-- What is named for a direct link is what is named in its target, which is inline. -/
theorem Anew.named_direct (h : site.Anew cell) {label : Label}
    (hlink : .direct label other ∈ cell.links) {digest : Digest}
    (hdigest : digest ∈ other.encode.named) : digest ∈ cell.encode.named := by
  rw [Cell.named_encode (h.direct hlink).sound] at hdigest
  have hinline := h.inline _ (Cell.mem_everyLink_of_mem hlink) other rfl
  rw [Cell.named_encode h.sound]
  exact Cell.mem_named.2 ⟨_, hlink, Link.named_of_inline hinline ▸ hdigest⟩

theorem Anew.named_soft (h : site.Anew cell) {label : Label} {digest : Digest}
    (hlink : .soft label digest ∈ cell.links) : digest ∈ cell.encode.named := by
  rw [Cell.named_encode h.sound]
  exact Cell.mem_named.2 ⟨_, hlink, List.mem_singleton_self _⟩

/-- What a table gives has been read from the entry. -/
theorem Gives.anew {rows : Index Bytes Row} (hstore : site.store = .table rows)
    (hgives : site.Gives key cell) : site.Anew cell := by
  obtain ⟨known, hnext, hread⟩ := hgives
  rw [hstore, Store.read_table] at hread
  split at hread
  · cases hread
  · split at hread
    · next found hdecode =>
      cases hread
      obtain ⟨hfrom, -⟩ := Cell.readFrom_of_decode hdecode
      exact ⟨⟨hfrom.sound, hfrom.laid.sound⟩, fun link hlink =>
        hnext.trans ((Nat.le_add_right _ _).trans (hfrom.laid.within link hlink).1),
        hfrom.laid.inline⟩
    · cases hread

/-- Nothing is held under labels that have not been used. -/
def KeptBelow (site : Site) : Prop :=
  ∀ (label : Label) (cell : Cell), site.known.kept[label]? = some cell → label < site.known.next

/-- Nobody holds the target of a link that has not been used. -/
theorem KeptBelow.resident_eq_none (h : site.KeptBelow) {label : Label} {digest : Digest}
    (hlabel : site.known.next ≤ label) : site.known.resident (.soft label digest) = none := by
  cases hresident : site.known.resident (.soft label digest) with
  | none => rfl
  | some target => exact absurd (h label target hresident) (Nat.not_lt.2 hlabel)

/-- If links have been found to lead somewhere, all that is named has entries, at every depth. -/
theorem Found.complete (hkeyed : site.store.Keyed) (hkept : site.KeptBelow)
    {rows : Index Bytes Row} (hstore : site.store = .table rows) (h : site.Found cell)
    (hanew : site.Anew cell) : ∀ digest ∈ cell.encode.named, site.store.Complete digest := by
  induction h with
  | @intro cell target leads below ih =>
    intro digest hdigest
    have hnamed := hdigest
    rw [Cell.named_encode hanew.sound, Cell.mem_named] at hnamed
    obtain ⟨link, hlink, hnamed⟩ := hnamed
    have hleads := leads link hlink
    have hih := ih link hlink
    generalize target link = found at hleads hih
    cases link with
    | direct label direct =>
      rcases hleads with hleads | ⟨hleads, -⟩
      · cases hleads
        have hinline := hanew.inline _ (Cell.mem_everyLink_of_mem hlink) _ rfl
        refine hih (hanew.direct hlink) digest ?_
        rw [Cell.named_encode (hanew.direct hlink).sound]
        exact Link.named_of_inline hinline ▸ hnamed
      · cases hleads
    | soft label other =>
      obtain rfl := List.mem_singleton.1 hnamed
      have hresident : site.known.resident (.soft label digest) = none :=
        hkept.resident_eq_none (hanew.label _ (Cell.mem_everyLink_of_mem hlink))
      rcases hleads with hheld | ⟨-, hgives⟩
      · cases hresident.symm.trans hheld
      · obtain ⟨known, -, hread⟩ := id hgives
        obtain ⟨status, hentry⟩ := hkeyed.of_read hread
        exact .entry hentry (hih (hgives.anew hstore))

/--
A cell that is met below one that a table gave: all that it names has entries, at every depth. Its
links are in use, or are not known of.
-/
structure Stocked (start : Site) (held : Set Link) (site : Site) (cell : Cell) : Prop where
  anew : start.Anew cell
  complete : ∀ digest ∈ cell.encode.named, start.store.Complete digest
  links : ∀ link ∈ cell.everyLink, link ∈ held ∨ site.known.next ≤ link.label

/-- A cell that a table gave, and that has been checked. -/
theorem Checked.stocked (h : start.Checked held site cell) (hkeyed : start.store.Keyed)
    (hkept : start.KeptBelow) {rows : Index Bytes Row} (hstore : start.store = .table rows)
    (hgives : start.Gives key cell) : Stocked start held site cell :=
  ⟨hgives.anew hstore, h.found.complete hkeyed hkept hstore (hgives.anew hstore),
    fun link hlink => .inl (h.links link hlink)⟩

section

variable {good : Cell → Prop} (hkeyed : start.store.Keyed) (hkept : start.KeptBelow)
  {rows : Index Bytes Row} (hstore : start.store = .table rows) (hlooked : start.LookedUp site)
  (hcoherent : Coherent good held site.known)

include hkeyed hkept hstore hlooked hcoherent

/-- The target of a link of such a cell is such a cell. -/
theorem Stocked.child (h : Stocked start held site cell) (hchild : site.Child cell other) :
    Stocked start held site other := by
  obtain ⟨link, hlink, htarget⟩ := hchild
  have hevery := Cell.mem_everyLink_of_mem hlink
  cases link with
  | direct label direct =>
    rcases htarget with htarget | ⟨htarget, -⟩
    · cases htarget
      exact ⟨h.anew.direct hlink, fun digest hdigest =>
        h.complete digest (h.anew.named_direct hlink hdigest),
        fun link hmem => h.links link (Cell.mem_everyLink_trans hevery rfl hmem)⟩
    · cases htarget
  | soft label digest =>
    have hstart : start.known.resident (.soft label digest) = none :=
      hkept.resident_eq_none (h.anew.label _ hevery)
    have hdigest : site.known.resident (.soft label digest) = some other →
        other.digest = digest := by
      intro hresident
      rcases h.links _ hevery with hheld | hlabel
      · exact hcoherent.digest _ hheld other hresident
      · exact absurd (hcoherent.kept label other hresident).1 (Nat.not_lt.2 hlabel)
    have hgives : start.Gives digest other := by
      rcases hlooked.target_of_target hdigest htarget with hheld | ⟨-, hgives⟩
      · cases hstart.symm.trans hheld
      · exact hgives
    obtain ⟨known, -, hread⟩ := id hgives
    obtain ⟨status, hentry⟩ := hkeyed.of_read hread
    obtain ⟨hfind, hnamed⟩ := h.complete digest (h.anew.named_soft hlink)
    rw [hentry] at hfind
    cases hfind
    refine ⟨hgives.anew hstore, hnamed, fun link hmem => ?_⟩
    rcases htarget with hresident | ⟨-, hnow⟩
    · rcases h.links _ hevery with hheld | hlabel
      · exact .inl ((hcoherent.resident hheld hresident).links link hmem)
      · exact absurd (hcoherent.kept label other hresident).1 (Nat.not_lt.2 hlabel)
    · exact .inr ((hnow.anew (hlooked.store.trans hstore)).label link hmem)

/-- What is met below such a cell, at any depth, is such a cell. -/
theorem Stocked.below (h : Stocked start held site cell)
    (hreach : Relation.ReflTransGen site.Child cell other) : Stocked start held site other := by
  induction hreach with
  | refl => exact h
  | tail _ hchild ih => exact ih.child hkeyed hkept hstore hlooked hcoherent hchild

end

/-- Every link of such a cell can be followed; it is inline, or has an entry. -/
theorem Stocked.exists_target (h : Stocked start held site cell) (hkeyed : start.store.Keyed)
    (hlooked : start.LookedUp site) (hlink : link ∈ cell.links) :
    (∃ target, site.Target link target) ∧
      (link.inline? = none → (start.store.find? link.digest).isSome) := by
  cases link with
  | direct label target =>
    refine ⟨⟨target, .inl rfl⟩, fun hinline => ?_⟩
    have hheld := h.anew.inline _ (Cell.mem_everyLink_of_mem hlink) target rfl
    cases hinline.symm.trans hheld
  | soft label digest =>
    have hsome := (h.complete digest (h.anew.named_soft hlink)).isSome
    exact ⟨hlooked.exists_target hkeyed (.inl hsome), fun _ => hsome⟩

/-! ### Cells that a memory store gives -/

/-- What a store gives has an entry. -/
theorem Gives.isSome (hkeyed : site.store.Keyed) (hgives : site.Gives key cell) :
    (site.store.find? key).isSome := by
  obtain ⟨known, -, hread⟩ := hgives
  obtain ⟨status, hentry⟩ := hkeyed.of_read hread
  rw [hentry]
  rfl

/-- A memory store gives one cell, whenever it is asked. -/
theorem Target.eq_of_memory {entries : Index Digest (Cell × Status)}
    (hstore : site.store = .memory entries) (h : site.Target link cell)
    (h' : site.Target link other) : cell = other := by
  rcases h with h | ⟨hnone, _, -, h⟩ <;> rcases h' with h' | ⟨hnone', _, -, h'⟩
  · exact Option.some.inj (h.symm.trans h')
  · cases h.symm.trans hnone'
  · cases hnone.symm.trans h'
  · rw [hstore, Store.read_memory] at h h'
    exact Option.some.inj (Except.ok.inj (h.symm.trans h'))

/-- The target of a link of a cell that has been checked is such a cell. -/
theorem Checked.child {entries : Index Digest (Cell × Status)}
    (hstore : start.store = .memory entries) (h : start.Checked held site cell)
    (hchild : site.Child cell other) : start.Checked held site other := by
  obtain ⟨link, hlink, htarget⟩ := hchild
  have hheld : link ∈ held := h.links link (Cell.mem_everyLink_of_mem hlink)
  have hleads : start.Target link other :=
    h.lookedUp.target_of_target (h.coherent.digest link hheld other) htarget
  obtain ⟨target, hleads', hfound⟩ := h.found.foundBelow link hlink
  obtain rfl := hleads.eq_of_memory hstore hleads'
  refine ⟨h.lookedUp, hfound, ?_, h.coherent, h.remembers⟩
  rcases htarget with hresident | ⟨-, _, -, hread⟩
  · exact (h.coherent.resident hheld hresident).links
  · rw [h.lookedUp.store, hstore, Store.read_memory] at hread
    obtain ⟨entry, hentry, rfl⟩ := Option.map_eq_some_iff.1 (Except.ok.inj hread)
    refine (h.remembers _ ?_).links
    rw [h.lookedUp.store, hstore]
    exact ⟨_, entry.2, hentry⟩

/-- What is met below such a cell, at any depth, is such a cell. -/
theorem Checked.below {entries : Index Digest (Cell × Status)}
    (hstore : start.store = .memory entries) (h : start.Checked held site cell)
    (hreach : Relation.ReflTransGen site.Child cell other) : start.Checked held site other := by
  induction hreach with
  | refl => exact h
  | tail _ hchild ih => exact ih.child hstore hchild

/-- Every link of such a cell can be followed; it has an entry, or held a cell at the start. -/
theorem Checked.exists_target (h : start.Checked held site cell) (hkeyed : start.store.Keyed)
    (hlink : link ∈ cell.links) :
    (∃ target, site.Target link target) ∧
      ((start.store.find? link.digest).isSome ∨ (start.known.resident link).isSome) := by
  obtain ⟨target, hleads, -⟩ := h.found.foundBelow link hlink
  have hhas : (start.store.find? link.digest).isSome ∨ (start.known.resident link).isSome :=
    hleads.symm.imp (fun hgives => hgives.2.isSome hkeyed)
      fun hresident => Option.isSome_iff_exists.2 ⟨target, hresident⟩
  exact ⟨h.lookedUp.exists_target hkeyed hhas, hhas⟩

end Site

/-! ### Lookups -/

namespace Settings

variable {settings : Settings} {key : Digest} {cell : Cell} {start site : Site}

/-- A lookup that checks first reads, and then checks what has been read. -/
theorem exists_check (hvalidate : settings.validateOnLookup)
    (hrun : (settings.lookup key).run.run start = (.ok (some cell), site)) :
    ∃ middle count, (settings.read key).run.run start = (.ok (some cell), middle) ∧
      (checkComplete cell).run.run middle = (.ok count, site) := by
  rw [lookup_eq, run_run_bind] at hrun
  rcases hread : (settings.read key).run.run start with ⟨fault | found, middle⟩ <;>
    rw [hread] at hrun <;> dsimp only at hrun
  · cases hrun
  · rw [if_pos hvalidate] at hrun
    cases found with
    | none => cases hrun
    | some found =>
      simp only [Functor.discard, LawfulFunctor.map_const, Function.comp_apply, map_eq_pure_bind,
        bind_assoc, pure_bind] at hrun
      rw [run_run_bind] at hrun
      rcases hcheck : (checkComplete found).run.run middle with ⟨fault | count, after⟩ <;>
        rw [hcheck] at hrun <;> dsimp only at hrun
      · cases hrun
      · cases hrun
        exact ⟨middle, count, rfl, hcheck⟩

/-- What is read is what the store gives. -/
theorem lookedUp_of_read (hkeyed : start.store.Keyed)
    (hrun : (settings.read key).run.run start = (.ok (some cell), site)) :
    start.LookedUp site ∧ start.Gives key cell := by
  unfold Settings.read at hrun
  split at hrun
  · cases hentry : start.store.find? key with
    | none =>
      obtain ⟨_, _, -, -, hget⟩ := StoreAction.run_get key start
      rw [StoreAction.lookup, run_run_bind, hget, hkeyed.legible.read_of_none hentry] at hrun
      cases hrun
    | some entry =>
      obtain ⟨found, next, noted, hnext, hnotes, hread, -, hlookup⟩ :=
        run_lookup_of_keyed hkeyed hentry
      cases hlookup.symm.trans hrun
      exact ⟨(Site.LookedUp.refl start).note hnext hnotes, start.known, le_rfl, hread⟩
  · obtain ⟨next, noted, hnext, hnotes, hget⟩ := StoreAction.run_get key start
    rw [hget] at hrun
    obtain ⟨hread, rfl⟩ := Prod.mk.inj hrun
    exact ⟨(Site.LookedUp.refl start).note hnext hnotes, start.known, le_rfl, hread⟩

end Settings

namespace Chronicle

variable {ι : Type} [DecidableEq ι] {chronicle : Chronicle ι} {index : ι}

/-- A cell that a lookup with a check gives is one that the store gives, and has been checked. -/
theorem Reached.checked (h : chronicle.Reached) {settings : Settings}
    (hvalidate : settings.validateOnLookup) {key : Digest} {cell : Cell} {site : Site}
    (hrun : (settings.lookup key).run.run (chronicle.session.site index) =
      (.ok (some cell), site)) :
    (chronicle.session.site index).Gives key cell ∧
      ∃ held, (chronicle.session.site index).Checked held site cell := by
  have hinv := h.inv
  have hkeyed : (chronicle.session.site index).store.Keyed := hinv.keyed index
  obtain ⟨middle, count, hread, hcheck⟩ := settings.exists_check hvalidate hrun
  obtain ⟨hmiddle, hgives⟩ := settings.lookedUp_of_read hkeyed hread
  -- The cell is in use once it has been read, and so is all that it holds after the check.
  have hkeeps : (Deposits.law fun _ => False).Keeps chronicle.session.links (fun _ => True)
      (settings.read key) _ := (Deposits.craft _).keeps_read settings key
  obtain ⟨held₁, -, hinv₁, -, hpost₁⟩ := hkeeps _ (hinv.usable.inv_site _ index) trivial
  rw [hread] at hinv₁ hpost₁
  have husable : cell.Usable held₁ := hpost₁ _ rfl cell rfl
  obtain ⟨held₂, hsub, hinv₂, -, -⟩ :=
    (Deposits.craft _).keeps_checkComplete husable middle hinv₁ trivial
  have hchecks : (Deposits.law fun _ => False).Guards held₁ _ (checkComplete cell) _ _ :=
    Deposits.guards_checkComplete hkeyed husable
  have hguards := hchecks.of_ok hinv₁ hmiddle (congrArg Prod.fst hcheck)
  rw [hcheck] at hinv₂ hguards
  exact ⟨hgives, held₂, hguards.1, hguards.2, fun link hlink => hsub (husable.links link hlink),
    hinv₂.1, hinv₂.2⟩

/--
What there is below a cell that a lookup with a check has given, in whatever has been written to the
store, and to others. Every link below the cell can be followed. What is named by digest there has
an entry; unless the store is a memory store, and the link held the cell before, wherever that is
from.
-/
theorem Reached.validated (h : chronicle.Reached) {settings : Settings}
    (hvalidate : settings.validateOnLookup) {key : Digest} {cell : Cell} {site : Site}
    (hrun : (settings.lookup key).run.run (chronicle.session.site index) =
      (.ok (some cell), site)) :
    site.store = chronicle.session.stores index ∧
    (∃ status, site.store.find? key = some (cell.encode, status)) ∧
    ∀ found, Relation.ReflTransGen site.Child cell found → ∀ link ∈ found.links,
      (∃ target, site.Target link target) ∧
      (link.inline? = none → (site.store.find? link.digest).isSome ∨
        (∃ entries, site.store = .memory entries) ∧
          (chronicle.session.known.resident link).isSome) := by
  have hinv := h.inv
  have hkeyed : (chronicle.session.site index).store.Keyed := hinv.keyed index
  obtain ⟨hgives, held, hchecked⟩ := h.checked hvalidate hrun
  have hlooked := hchecked.lookedUp
  have hstore : site.store = chronicle.session.stores index := hlooked.store
  obtain ⟨status, hentry⟩ : ∃ status, (chronicle.session.stores index).find? key =
      some (cell.encode, status) := by
    obtain ⟨known, -, hgiven⟩ := hgives
    exact hkeyed.of_read hgiven
  refine ⟨hstore, ⟨status, hstore ▸ hentry⟩, fun found hreach link hlink => ?_⟩
  cases hkind : chronicle.session.stores index with
  | memory entries =>
    obtain ⟨hleads, hhas⟩ := (hchecked.below hkind hreach).exists_target hkeyed hlink
    refine ⟨hleads, fun _ => hhas.imp (fun hsome => ?_) fun hresident => ?_⟩
    · exact hstore ▸ hsome
    · exact ⟨⟨entries, hstore.trans hkind⟩, hresident⟩
  | table rows =>
    have hkept : (chronicle.session.site index).KeptBelow :=
      fun label cell hcell => (hinv.usable.coherent.kept label cell hcell).1
    have hstocked := hchecked.stocked hkeyed hkept hkind hgives
    have hfound := hstocked.below hkeyed hkept hkind hlooked hchecked.coherent hreach
    obtain ⟨hleads, hsome⟩ := hfound.exists_target hkeyed hlooked hlink
    exact ⟨hleads, fun hinline => .inl (hstore ▸ hsome hinline)⟩

/-! ### A vector without its blob -/

/-- The policy under which lookups check. -/
def strict : Settings := { validateOnLookup := true }

/-- The vector is looked up in the memory store, where it has been put without its blob. -/
def strictLookup : Except StoreFault (Option Cell) × Site :=
  (strict.lookup Session.blobVector.digest).run.run (putThrice.session.site false)

set_option maxRecDepth 20000 in
/-- What the lookup comes to. -/
theorem strictLookup_evaluated :
    (strictLookup.1.toOption.join.map fun cell => cell.links.map Link.digest) =
        some [Session.largeBlob.digest] ∧
      (putThrice.session.stores false).find? Session.largeBlob.digest = none := by
  decide +kernel

set_option maxRecDepth 20000 in
/-- The vector is given. Its blob is not in the store, but its link has held that all along. -/
theorem blobVector_strict :
    ∃ cell, strictLookup.1 = .ok (some cell) ∧ cell.links.map Link.digest =
        [Session.largeBlob.digest] ∧
      strictLookup.2.store.find? Session.largeBlob.digest = none ∧
      ∀ link ∈ cell.links, (∃ target, strictLookup.2.Target link target) ∧
        (link.inline? = none → (putThrice.session.known.resident link).isSome) := by
  obtain ⟨hdigests, hnone⟩ := strictLookup_evaluated
  obtain ⟨cell, hcell, hlinks⟩ := Option.map_eq_some_iff.1 hdigests
  have hfound : strictLookup.1 = .ok (some cell) := by
    rcases hrun : strictLookup.1 with fault | _ | found <;> rw [hrun] at hcell <;> cases hcell
    rfl
  have hvalidate : strict.validateOnLookup := rfl
  have hrun : (strict.lookup Session.blobVector.digest).run.run (putThrice.session.site false) =
      (.ok (some cell), strictLookup.2) := Prod.ext hfound rfl
  obtain ⟨hstore, -, hbelow⟩ := reached_putThrice.validated hvalidate hrun
  rw [← hstore] at hnone
  refine ⟨cell, hfound, hlinks, hnone, fun link hlink => ?_⟩
  have hdigest : link.digest = Session.largeBlob.digest :=
    List.mem_singleton.1 (hlinks ▸ List.mem_map_of_mem hlink)
  obtain ⟨htarget, hhas⟩ := hbelow cell .refl link hlink
  refine ⟨htarget, fun hinline => (hhas hinline).elim (fun hsome => ?_) And.right⟩
  rw [hdigest, hnone] at hsome
  cases hsome

end Chronicle

end CellGraph
