import CellGraph.Proofs.Store.Completeness
import CellGraph.Proofs.Walk.Order

/-!
# Checks and walks

A walk of a full cell does not fail. If something is missing below a cell, a walk of the cell fails
for the same reason as a check of a copy; unless it has written, on its way, the very cell that was
missing. For the walk writes cells as it meets them, and later links can lead to these.

* `Course.full`: the course of a walk from a full cell;
* `Plan.lacking`, `Plan.follows_lacking`: walks from a cell below which a digest is missing;
* `Session.Reached.agreeing`: checks and walks.
-/

namespace CellGraph

open StoreAction

namespace Site

variable {site : Site} {cell : Cell} {link : Link} {digest : Digest}

/-- A digest is missing at a link: the link leads nowhere, or to cells below which it is missing. -/
def LacksAt (site : Site) (link : Link) (digest : Digest) : Prop :=
  (∃ label, link = .soft label digest ∧ site.known.resident link = none ∧
    site.store.find? digest = none) ∨
  (∃ target, site.Target link target) ∧ ∀ target, site.Target link target → site.Lacks target digest

/-- A digest is missing below a cell if it is at the first link that does not lead to full cells. -/
theorem Lacks.split (h : site.Lacks cell digest) : ∃ before link after,
    cell.links = before ++ link :: after ∧ (∀ other ∈ before, site.FullAt other) ∧
      site.LacksAt link digest := by
  cases h with
  | here links full resident entry => exact ⟨_, _, _, links, full, .inl ⟨_, rfl, resident, entry⟩⟩
  | deeper links full leads lacks => exact ⟨_, _, _, links, full, .inr ⟨leads, lacks⟩⟩

end Site

/-! ### What a store has got -/

namespace Origin

variable {origin : Origin} {held₀ : Set Link} {start : Site} {cell target : Cell} {link : Link}
  {digest : Digest} {store : Store}

section

variable (h₀ : origin.Inv held₀ start) (hinj : Set.InjOn Digest.of origin.encodings)
  (hsound : store.Sound)
  (hentries : ∀ key encoding status, store.find? key = some (encoding, status) →
    encoding ∈ origin.encodings)

include h₀ hinj hsound hentries

/-- A store that is complete below a link is complete below the cells to which the link leads. -/
theorem Meets.complete_target (hcell : Meets held₀ start cell) (hlink : link ∈ cell.links)
    (htarget : start.Target link target) (hnamed : ∀ key ∈ link.named, store.Complete key) :
    ∀ key ∈ target.named, store.Complete key := by
  obtain ⟨hmeets, hdigest, hinline | ⟨hinline, hrefers⟩⟩ :=
    hcell.child_of_target h₀ hlink htarget
  · rwa [Link.named_of_inline hinline] at hnamed
  · rw [Link.named_of_not_inline hinline] at hnamed
    obtain ⟨hfind, hnames⟩ := hnamed _ (List.mem_singleton_self _)
    have hsame := hinj (hentries _ _ _ hfind) hrefers.1
      ((hsound.key _ _ _ hfind).symm.trans hdigest.symm)
    rwa [hsame, Cell.named_encode hmeets.sound] at hnames

/-- What was missing below a cell has got an entry if the store is complete below the cell. -/
theorem Meets.isSome_of_lacks (hcell : Meets held₀ start cell) (hlacks : start.Lacks cell digest)
    (hnamed : ∀ key ∈ cell.named, store.Complete key) : (store.find? digest).isSome := by
  induction hlacks with
  | here links _ _ _ =>
    have hlink := links ▸ List.mem_append_right _ (List.mem_cons_self ..)
    refine (hnamed _ (Cell.mem_named.2 ⟨_, hlink, ?_⟩)).isSome
    rw [Link.named_of_not_inline rfl]
    exact List.mem_singleton_self _
  | deeper links _ leads _ ih =>
    obtain ⟨target, htarget⟩ := leads
    have hlink := links ▸ List.mem_append_right _ (List.mem_cons_self ..)
    refine ih target htarget (hcell.child_of_target h₀ hlink htarget).1 ?_
    exact hcell.complete_target h₀ hinj hsound hentries hlink htarget fun key hkey =>
      hnamed key (Cell.mem_named.2 ⟨_, hlink, hkey⟩)

theorem Meets.isSome_of_lacksAt (hcell : Meets held₀ start cell) (hlink : link ∈ cell.links)
    (hlacks : start.LacksAt link digest) (hnamed : ∀ key ∈ link.named, store.Complete key) :
    (store.find? digest).isSome := by
  rcases hlacks with ⟨label, rfl, -, -⟩ | ⟨⟨target, htarget⟩, hbelow⟩
  · refine (hnamed digest ?_).isSome
    rw [Link.named_of_not_inline rfl]
    exact List.mem_singleton_self _
  · exact (hcell.child_of_target h₀ hlink htarget).1.isSome_of_lacks h₀ hinj hsound hentries
      (hbelow target htarget) (hcell.complete_target h₀ hinj hsound hentries hlink htarget hnamed)

end

end Origin

/-! ### Walks from full cells -/

section

variable {origin : Origin} {start : Site} {goal : Status} {cell : Cell} {link : Link}

/-- The plan of a walk from a full cell. It does not fail if no encoding depends on itself. -/
def Plan.full (origin : Origin) (start : Site) (goal : Status)
    (hacyclic : ∀ encoding, ¬Depends origin.encodings encoding encoding) :
    Plan origin start goal where
  visits := start.Full
  written := Set.univ
  fails _ _ := False
  endless hdepends _ := hacyclic _ hdepends

variable (hacyclic : ∀ encoding, ¬Depends origin.encodings encoding encoding)
  (hsound : start.store.Sound)

include hsound in
theorem Plan.opens_full (h : start.FullAt link) :
    (Plan.full origin start goal hacyclic).Opens cell link where
  child htarget _ := h.2 _ htarget
  writes _ := trivial
  missing heq htrace hresident hentry := by
    subst heq
    obtain ⟨⟨target, htarget⟩, -⟩ := h
    exact htarget.find?_ne_none hsound (htrace.moves.resident_eq_none hresident)
      (htrace.moves.store.find?_eq_none hentry)

variable (origin start goal) in
/-- The course of a walk from a full cell. -/
def Course.full : Course origin start goal where
  toPlan := Plan.full origin start goal hacyclic
  child hvisits hlink htarget hencloses :=
    (Plan.opens_full hacyclic hsound (Site.full_iff.1 hvisits _ hlink)).child htarget hencloses
  writes _ _ := trivial
  missing {cell label digest _} hvisits hlink htrace hresident hentry :=
    have hopens : (Plan.full origin start goal hacyclic).Opens cell (.soft label digest) :=
      Plan.opens_full hacyclic hsound (Site.full_iff.1 hvisits _ hlink)
    hopens.missing rfl htrace hresident hentry

end

/-! ### Walks from cells below which something is missing -/

namespace Plan

/--
The plan of a walk from a cell below which a digest is missing. If it fails, that is the reason, or
the digest has got an entry on the way.
-/
def lacking (origin : Origin) (start : Site) (goal : Status)
    (hacyclic : ∀ encoding, ¬Depends origin.encodings encoding encoding) (held₀ : Set Link)
    (digest : Digest) : Plan origin start goal where
  visits cell := Origin.Meets held₀ start cell ∧ start.Lacks cell digest
  written := Set.univ
  fails fault site := fault = .cell (.missingData digest) ∨ (site.store.find? digest).isSome
  endless hdepends _ := (hacyclic _ hdepends).elim

section

variable {origin : Origin} {start : Site} {goal : Status} {held held₀ : Set Link} {hops : Nat}
  {cell : Cell} {link : Link} {digest : Digest}
  (hacyclic : ∀ encoding, ¬Depends origin.encodings encoding encoding)
  (h₀ : origin.Inv held₀ start)

include h₀

theorem opens_lacking (hcell : Origin.Meets held₀ start cell) (hlink : link ∈ cell.links)
    (h : start.LacksAt link digest) :
    (lacking origin start goal hacyclic held₀ digest).Opens cell link where
  child htarget _ := by
    refine ⟨(hcell.child_of_target h₀ hlink htarget).1, ?_⟩
    rcases h with ⟨label, rfl, hresident, hentry⟩ | ⟨-, hbelow⟩
    · exact absurd hentry (htarget.find?_ne_none h₀.store hresident)
    · exact hbelow _ htarget
  writes _ := trivial
  missing heq htrace hresident hentry := by
    subst heq
    rcases h with ⟨label, heq, -, -⟩ | ⟨⟨target, htarget⟩, -⟩
    · cases heq
      exact .inl rfl
    · exact absurd (htrace.moves.store.find?_eq_none hentry)
        (htarget.find?_ne_none h₀.store (htrace.moves.resident_eq_none hresident))

variable (hw : origin.Watches start goal)

include hw

/-- A link that leads to full cells is walked without fail. -/
theorem guards_linkFull (hcell : cell.Within origin.Covers held)
    (hready : (lacking origin start goal hacyclic held₀ digest).Ready (hops + 1) cell)
    (hlink : link ∈ cell.links) (hfull : start.FullAt link) :
    origin.law.Guards held (lacking origin start goal hacyclic held₀ digest).Traced
      (link.walkBelow goal (Cell.walkChildren goal hops))
      (fun _ site => (lacking origin start goal hacyclic held₀ digest).Traced site)
      (lacking origin start goal hacyclic held₀ digest).fails :=
  ((Course.full origin start goal hacyclic h₀.store).guards_link hw hcell hready.2 hlink
    (opens_full hacyclic h₀.store hfull)).mono_fails fun _ _ hfalse => hfalse.elim

/-- Once the link at which a digest is missing has been walked, the digest has got an entry. -/
theorem guards_linkLacking (hcell : cell.Within origin.Covers held)
    (hready : (lacking origin start goal hacyclic held₀ digest).Ready (hops + 1) cell)
    (hlink : link ∈ cell.links) (hlacks : start.LacksAt link digest)
    (hfollow : (lacking origin start goal hacyclic held₀ digest).Follows hops held
      (Cell.walkChildren goal hops))
    (hdirect : ∀ target, link.target? = some target → ∀ held', held ⊆ held' →
      target.Within origin.Covers held' →
      (lacking origin start goal hacyclic held₀ digest).Ready (hops + 1) target →
      origin.law.Guards held' (lacking origin start goal hacyclic held₀ digest).Traced
        (Cell.walkChildren goal (hops + 1) target)
        (fun _ site => (lacking origin start goal hacyclic held₀ digest).Traced site)
        (lacking origin start goal hacyclic held₀ digest).fails) :
    origin.law.Guards held (lacking origin start goal hacyclic held₀ digest).Traced
      (link.walkBelow goal (Cell.walkChildren goal hops))
      (fun _ site => (lacking origin start goal hacyclic held₀ digest).Traced site ∧
        (site.store.find? digest).isSome)
      (lacking origin start goal hacyclic held₀ digest).fails := by
  have hheld := hcell.links link (Cell.mem_everyLink_of_mem hlink)
  have hwalks : origin.Walks goal held (Cell.walkChildren goal hops) :=
    Origin.walks_walkChildren hw.stored hops
  refine (guards_walkBelow hw hcell hready.2 hlink
    (opens_lacking hacyclic h₀ hready.1.1 hlink hlacks) hwalks hfollow hdirect).mono_kept
      (keeps_walkBelow hw.stored hheld hwalks).of_always
        fun _ held' site hsub hinv hstatus htrace => ⟨htrace, ?_⟩
  -- The link has the status now, so the store has all that the link names.
  refine hready.1.1.isSome_of_lacksAt h₀ hw.inj hinv.store hinv.encodings hlink hlacks
    fun key hkey => htrace.whole key ?_
  exact (Origin.Inv.backs hw htrace.moves hw.stored
    (hinv.settled hw.inj (hsub hheld) hw.stored hstatus) key hkey).isSome

omit h₀ in
/-- Any link may be walked once the digest has got an entry, which it keeps. -/
theorem guards_linkAfter (hcell : cell.Within origin.Covers held)
    (hready : (lacking origin start goal hacyclic held₀ digest).Ready (hops + 1) cell)
    (hlink : link ∈ cell.links) :
    origin.law.Guards held
      (fun site => (lacking origin start goal hacyclic held₀ digest).Traced site ∧
        (site.store.find? digest).isSome)
      (link.walkBelow goal (Cell.walkChildren goal hops))
      (fun _ site => (lacking origin start goal hacyclic held₀ digest).Traced site ∧
        (site.store.find? digest).isSome)
      (lacking origin start goal hacyclic held₀ digest).fails := by
  have htraced := (Course.everything origin start goal).guards_link hw hcell hready.2 hlink
    ((Course.everything origin start goal).opens trivial hlink)
  have hwalks : origin.Walks goal held (Cell.walkChildren goal hops) :=
    Origin.walks_walkChildren hw.stored hops
  have hkeeps := keeps_walkBelow hw.stored
    (hcell.links link (Cell.mem_everyLink_of_mem hlink)) hwalks
  have hstays : ∀ held site held' site', origin.law.le held site held' site' →
      (site.store.find? digest).isSome → (site'.store.find? digest).isSome :=
    fun _ _ _ _ hmoves hsome => hmoves.store.isSome hsome
  exact ((htraced.mono (fun _ _ h => h.1) fun _ _ h => h).and
    ((Law.Guards.of_keeps hkeeps hstays).mono (fun _ _ h => ⟨trivial, h.2⟩)
      fun _ _ h => h)).mono_fails fun _ _ h => .inr h.2

/--
A walk of the links of a cell below which a digest is missing. It does not fail before it comes to
the link where that is so, and when it has gone past that, the digest has got an entry.
-/
theorem follows_lacking (hops : Nat) :
    (lacking origin start goal hacyclic held₀ digest).Follows hops held
      (Cell.walkChildren goal hops) := by
  induction hops with
  | zero =>
    rintro held' cell - - ⟨-, hroom⟩
    obtain ⟨encoding, -, hdepends⟩ := hroom.exists_depends_self
    exact (hacyclic encoding hdepends).elim
  | succ hops ih =>
    intro held' cell hsub hcell hready
    induction cell using Cell.induct generalizing held' with
    | step label value below =>
      obtain ⟨before, link, after, hlinks, hfull, hlacks⟩ := hready.1.2.split
      have hmem : ∀ other ∈ before ++ link :: after, other ∈ (Cell.mk label value).links :=
        fun other hother => hlinks ▸ hother
      have hmid := hmem link (List.mem_append_right _ (List.mem_cons_self ..))
      have hall : origin.law.Guards held' (lacking origin start goal hacyclic held₀ digest).Traced
          ((before ++ link :: after).forM (Link.walkBelow goal (Cell.walkChildren goal hops)))
          (fun _ site => (lacking origin start goal hacyclic held₀ digest).Traced site ∧
            (site.store.find? digest).isSome)
          (lacking origin start goal hacyclic held₀ digest).fails := by
        refine .forM_split (fun other hother held₁ hsub₁ => ?_) (fun other hother held₁ hsub₁ => ?_)
          (fun held₁ hsub₁ => ?_) fun other hother held₁ hsub₁ => ?_
        · have hheld := hcell.links other (Cell.mem_everyLink_of_mem (hmem other hother))
          exact (keeps_walkBelow hw.stored (hsub₁ hheld)
            (Origin.walks_walkChildren hw.stored hops)).mono_right fun _ _ _ _ => trivial
        · exact guards_linkFull hacyclic h₀ hw (hcell.mono hsub₁) hready
            (hmem other (List.mem_append_left _ hother)) (hfull other hother)
        · exact guards_linkLacking hacyclic h₀ hw (hcell.mono hsub₁) hready hmid hlacks
            (ih.mono (hsub.trans hsub₁)) fun target ht held₂ hsub₂ =>
              below link hmid target ht held₂ ((hsub.trans hsub₁).trans hsub₂)
        · exact guards_linkAfter hacyclic hw (hcell.mono hsub₁) hready
            (hmem other (List.mem_append_right _ (List.mem_cons_of_mem _ hother)))
      show origin.law.Guards held' _
        (Cell.encodeWalking goal (Cell.walkChildren goal hops) (.mk label value)).2 _ _
      rw [Cell.encodeWalking_snd, show value.links = before ++ link :: after from hlinks]
      exact hall.mono (fun _ _ h => h) fun _ _ h => h.1

end

end Plan

namespace Site

/-- A digest that is missing has no entry. -/
theorem Lacks.find?_eq_none {site : Site} {cell : Cell} {digest : Digest}
    (h : site.Lacks cell digest) : site.store.find? digest = none := by
  induction h with
  | here _ _ _ entry => exact entry
  | deeper _ _ leads _ ih =>
    obtain ⟨target, htarget⟩ := leads
    exact ih target htarget

end Site

namespace Session

variable {ι : Type} [DecidableEq ι] [Subsingleton ι] {session : Session ι}

section

variable (h : session.Reached) (hinj : Set.InjOn Digest.of session.encodings)
  (hacyclic : ∀ encoding, ¬Depends session.encodings encoding encoding) (index : ι) (goal : Goal)
  {cell : Cell} (hcell : cell ∈ session.cells)

include h hinj hacyclic hcell

/-- A walk that fails has found a digest that has got no entry. -/
theorem Reached.missing_of_make {fault : StoreFault}
    (hfault : ((make goal cell).run.run (session.site index)).1 = .error fault) :
    ∃ digest, fault = .cell (.missingData digest) ∧
      ((make goal cell).run.run (session.site index)).2.store.find? digest = none := by
  have hguards := Course.guards_make
    (.below (session.origin h.inv.toSound) (session.site index) goal.val cell)
    (h.inv.watches hinj index goal.2) (h.inv.toSound.covers hcell) (.inl ⟨cell, hcell, rfl⟩)
    (Course.visits_below ..) (Set.subset_insert cell.encode _) (Set.mem_insert _ _)
  obtain ⟨-, ⟨digest, rfl, -, -, -, -, -, hentry⟩ | ⟨-, encoding, hdepends⟩⟩ :=
    hguards.of_error (h.inv.atOrigin index) ⟨rfl, trace_site (h.whole hinj index) _ _ _⟩ hfault
  · exact ⟨digest, rfl, hentry⟩
  · exact (hacyclic encoding hdepends).elim

/-- A walk of a full cell succeeds. -/
theorem Reached.make_of_full (hfull : (session.site index).Full cell) :
    ∃ link, ((make goal cell).run.run (session.site index)).1 = .ok link := by
  cases houtcome : ((make goal cell).run.run (session.site index)).1 with
  | ok link => exact ⟨link, rfl⟩
  | error fault =>
    have hguards :=
      (Course.full (session.origin h.inv.toSound) _ goal hacyclic (h.inv.store index)).guards_make
        (h.inv.watches hinj index goal.2) (h.inv.toSound.covers hcell) (.inl ⟨cell, hcell, rfl⟩)
        hfull subset_rfl trivial
    exact (hguards.of_error (h.inv.atOrigin index)
      ⟨rfl, trace_site (h.whole hinj index) _ _ _⟩ houtcome).elim

/-- A walk of a cell below which a digest is missing fails for that, or the digest gets an entry. -/
theorem Reached.make_of_lacks {digest : Digest} (hlacks : (session.site index).Lacks cell digest)
    (hentry : ((make goal cell).run.run (session.site index)).2.store.find? digest = none) :
    ((make goal cell).run.run (session.site index)).1 =
      .error (.cell (.missingData digest)) := by
  have hinv := h.inv.atOrigin index
  have hcovers := h.inv.toSound.covers hcell
  have hwatches := h.inv.watches hinj index goal.2
  have hmeets := hinv.meets_of_within hcovers
  have hguards := Plan.guards_make
    (.lacking (session.origin h.inv.toSound) _ goal hacyclic session.links digest) hwatches
    (Plan.follows_lacking hacyclic hinv hwatches) hcovers (.inl ⟨cell, hcell, rfl⟩)
    ⟨hmeets, hlacks⟩ subset_rfl trivial
  have htrace := trace_site (h.whole hinj index) session.encodings goal.val Set.univ
  cases houtcome : ((make goal cell).run.run (session.site index)).1 with
  | error fault =>
    rcases hguards.of_error hinv ⟨rfl, htrace⟩ houtcome with rfl | hsome
    · rfl
    · rw [hentry] at hsome
      cases hsome
  | ok link =>
    -- At the end the store is complete below the cell, so that nothing is missing there.
    obtain ⟨hfinished, -⟩ := h.finished hinj hcell (Prod.ext houtcome rfl)
    obtain ⟨status, -, hfound⟩ := hfinished.has
    obtain ⟨hfind, hnamed⟩ := hfinished.trace.whole cell.digest (by rw [hfound]; rfl)
    rw [hfound] at hfind
    cases hfind
    have hsome := hmeets.isSome_of_lacks hinv hinj hfinished.sound hfinished.entries hlacks
      fun key hkey => hnamed key (Cell.named_encode hmeets.sound ▸ hkey)
    rw [hentry] at hsome
    cases hsome

end

/--
With one store, and if no encoding depends on itself: when a check of a copy succeeds, so does a
walk of the cell. A walk that fails has found something missing. When a check of a copy fails, then
because a digest is missing, which had no entry at the start. The walk fails with the same fault if
and only if there is still no entry at its end; else it has written that cell itself.
-/
theorem Reached.agreeing (h : session.Reached) (hinj : Set.InjOn Digest.of session.encodings)
    (hacyclic : ∀ encoding, ¬Depends session.encodings encoding encoding) (index : ι) (goal : Goal)
    {cell copy : Cell} (hcell : cell ∈ session.cells) (hcopy : copy ∈ session.cells)
    (hcopies : (session.site index).Copies cell copy) :
    let walk := (make goal cell).run.run (session.site index)
    let check := (checkComplete copy).run.run (session.site index)
    (∀ count, check.1 = .ok count → ∃ link, walk.1 = .ok link) ∧
    (∀ fault, walk.1 = .error fault → ∃ digest, fault = .cell (.missingData digest)) ∧
    ∀ fault, check.1 = .error fault → ∃ digest, fault = .cell (.missingData digest) ∧
      (session.stores index).find? digest = none ∧
      (walk.1 = .error fault ↔ walk.2.store.find? digest = none) := by
  intro walk check
  have hinv := h.inv.atOrigin index
  have hcheck := Origin.guards_checkComplete hinv hinj
    (trace_site (h.whole hinj index) _ _ _) (h.inv.toSound.covers hcopy)
  refine ⟨fun count hcount => ?_, fun fault hfault => ?_, fun fault hfault => ?_⟩
  · obtain ⟨-, hcounted⟩ := hcheck.of_ok hinv rfl hcount
    exact h.make_of_full hinj hacyclic index goal hcell (hcounted.full.copy hcopies.symm)
  · obtain ⟨digest, heq, -⟩ := h.missing_of_make hinj hacyclic index goal hcell hfault
    exact ⟨digest, heq⟩
  · rcases hcheck.of_error hinv rfl hfault with ⟨digest, rfl, hlacks⟩ | ⟨-, encoding, -, hdepends⟩
    · have hlacks' := hlacks.copy hcopies.symm
      refine ⟨digest, rfl, hlacks.find?_eq_none, fun hwalk => ?_,
        h.make_of_lacks hinj hacyclic index goal hcell hlacks'⟩
      obtain ⟨other, heq, hentry⟩ := h.missing_of_make hinj hacyclic index goal hcell hwalk
      cases heq
      exact hentry
    · exact (hacyclic encoding hdepends).elim

/--
Whether digests tell the encodings apart can be found out by going through these, and whether one of
them depends on itself by counting the digests that they name.
-/
theorem injOn_acyclic_of_everyEncoding {session : Session Unit}
    (h : ∀ a ∈ session.everyEncoding [()], ∀ b ∈ session.everyEncoding [()],
      (Digest.of a = Digest.of b → a = b) ∧
        (Digest.of b ∈ a.named → b.named.length < a.named.length)) :
    Set.InjOn Digest.of session.encodings ∧
      ∀ encoding, ¬Depends session.encodings encoding encoding := by
  have hlt : ∀ {a b : Bytes}, a ∈ session.encodings → Depends session.encodings a b →
      b.named.length < a.named.length := by
    intro a b ha hab
    induction hab with
    | single hab =>
      exact (h a (mem_everyEncoding mem_unit ha) _ (mem_everyEncoding mem_unit hab.1)).2 hab.2
    | tail hab hbc ih =>
      exact ((h _ (mem_everyEncoding mem_unit (Depends.mem hab)) _
        (mem_everyEncoding mem_unit hbc.1)).2 hbc.2).trans ih
  exact ⟨injOn_of_everyEncoding mem_unit fun a ha b hb => (h a ha b hb).1,
    fun _ hdepends => lt_irrefl _ (hlt (Depends.mem hdepends) hdepends)⟩

/-! ### Vectors that were made twice -/

/-- Another large blob of the same bytes. -/
def otherBlob : Cell := .mk 4 (.blob (List.replicate 200 1))

/-- A vector of the large blob, and of a soft link to that. -/
def doubleVector : Cell := .mk 3 (.vector [.direct 1 largeBlob, .soft 2 largeBlob.digest])

/-- A copy of the vector. -/
def otherVector : Cell := .mk 7 (.vector [.direct 5 otherBlob, .soft 6 largeBlob.digest])

/-- A memory store, and a user who has made the vector twice. -/
def twoVectors : Session Unit :=
  (((((((Session.perform { stores := fun _ => .emptyMemory }
    (.cells (.blob (List.replicate 200 1)))).perform (.cells (.link largeBlob))).perform
      (.cells (.soft largeBlob.digest))).perform
        (.cells (.vectorOf [.direct 1 largeBlob, .soft 2 largeBlob.digest]))).perform
          (.cells (.blob (List.replicate 200 1)))).perform (.cells (.link otherBlob))).perform
            (.cells (.soft largeBlob.digest))).perform
              (.cells (.vectorOf [.direct 5 otherBlob, .soft 6 largeBlob.digest]))

set_option maxRecDepth 20000 in
/-- What the requests of the user, a walk of the vector and a check of its copy come to. -/
theorem twoVectors_evaluated :
    Session.FitsThroughout [()] { stores := fun _ => .emptyMemory }
      [.cells (.blob (List.replicate 200 1)), .cells (.link largeBlob),
        .cells (.soft largeBlob.digest),
        .cells (.vectorOf [.direct 1 largeBlob, .soft 2 largeBlob.digest]),
        .cells (.blob (List.replicate 200 1)), .cells (.link otherBlob),
        .cells (.soft largeBlob.digest),
        .cells (.vectorOf [.direct 5 otherBlob, .soft 6 largeBlob.digest])] ∧
      (∀ a ∈ twoVectors.everyEncoding [()], ∀ b ∈ twoVectors.everyEncoding [()],
        (Digest.of a = Digest.of b → a = b) ∧
          (Digest.of b ∈ a.named → b.named.length < a.named.length)) ∧
      (∀ label ∈ [2, 6],
        ((twoVectors.site ()).known.resident (.soft label largeBlob.digest)).isNone) ∧
      ((make .persisted doubleVector).run.run (twoVectors.site ())).1.isOk ∧
      ((checkComplete otherVector).run.run (twoVectors.site ())).1 =
        .error (.cell (.missingData largeBlob.digest)) := by
  decide +kernel

theorem reached_twoVectors : twoVectors.Reached := by
  simpa only [twoVectors, List.foldl] using
    (Reached.start (fun _ => .emptyMemory) fun _ => .inl rfl).requests mem_unit _
      twoVectors_evaluated.1
      ⟨List.forall_mem_nil _, mem_items_of_places [0] rfl, List.forall_mem_nil _,
        mem_items_of_places [1, 2] rfl, List.forall_mem_nil _, mem_items_of_places [4] rfl,
        List.forall_mem_nil _, mem_items_of_places [5, 6] rfl, trivial⟩

/-- Vectors of the two blobs, and of a soft link each, are copies if neither link holds anything. -/
theorem copies_vectors {site : Site} {label label' soft soft' : Label} {digest : Digest}
    (hempty : site.known.resident (.soft soft digest) = none)
    (hempty' : site.known.resident (.soft soft' digest) = none) :
    site.Copies (.mk label (.vector [.direct 1 largeBlob, .soft soft digest]))
      (.mk label' (.vector [.direct 5 otherBlob, .soft soft' digest])) := by
  refine ⟨fun a b => (a = .mk label (.vector [.direct 1 largeBlob, .soft soft digest]) ∧
      b = .mk label' (.vector [.direct 5 otherBlob, .soft soft' digest])) ∨
        a = largeBlob ∧ b = otherBlob, .inl ⟨rfl, rfl⟩, ?_⟩
  rintro a b (⟨rfl, rfl⟩ | ⟨rfl, rfl⟩)
  · refine ⟨.vector [(.direct 1 largeBlob, .direct 5 otherBlob),
      (.soft soft digest, .soft soft' digest)], rfl, rfl, fun pair hpair => ?_⟩
    rcases List.mem_pair.1 hpair with rfl | rfl
    · exact .direct (.inr ⟨rfl, rfl⟩)
    · exact .empty hempty hempty'
  · exact ⟨.blob (List.replicate 200 1), rfl, rfl, fun pair hpair => by cases hpair⟩

/-- A vector of the large blob, and of a soft link that leads nowhere. -/
def strayVector : Cell := .mk 10 (.vector [.direct 1 largeBlob, .soft 8 Digest.absent])

/-- A copy of that vector. -/
def otherStray : Cell := .mk 11 (.vector [.direct 5 otherBlob, .soft 9 Digest.absent])

/-- The user has made two vectors more, with soft links that lead nowhere, and has stored the blob. -/
def storedBlob : Session Unit :=
  ((((twoVectors.perform (.cells (.soft Digest.absent))).perform
    (.cells (.soft Digest.absent))).perform
      (.cells (.vectorOf [.direct 1 largeBlob, .soft 8 Digest.absent]))).perform
        (.cells (.vectorOf [.direct 5 otherBlob, .soft 9 Digest.absent]))).perform
          (.store () (.make ⟨.stored, by decide⟩ largeBlob))

set_option maxRecDepth 20000 in
/-- What these requests, and checks and a walk after them, come to. -/
theorem storedBlob_evaluated :
    twoVectors.FitsThroughout [()]
      [.cells (.soft Digest.absent), .cells (.soft Digest.absent),
        .cells (.vectorOf [.direct 1 largeBlob, .soft 8 Digest.absent]),
        .cells (.vectorOf [.direct 5 otherBlob, .soft 9 Digest.absent]),
        .store () (.make ⟨.stored, by decide⟩ largeBlob)] ∧
      (∀ a ∈ storedBlob.everyEncoding [()], ∀ b ∈ storedBlob.everyEncoding [()],
        (Digest.of a = Digest.of b → a = b) ∧
          (Digest.of b ∈ a.named → b.named.length < a.named.length)) ∧
      (∀ label ∈ [2, 6],
        ((storedBlob.site ()).known.resident (.soft label largeBlob.digest)).isNone) ∧
      (∀ label ∈ [8, 9],
        ((storedBlob.site ()).known.resident (.soft label Digest.absent)).isNone) ∧
      ((checkComplete otherVector).run.run (storedBlob.site ())).1 = .ok 3 ∧
      ((checkComplete otherStray).run.run (storedBlob.site ())).1 =
        .error (.cell (.missingData Digest.absent)) ∧
      ((make toPersisted.val strayVector).run.run (storedBlob.site ())).2.store.find?
        Digest.absent = none := by
  decide +kernel

theorem reached_storedBlob : storedBlob.Reached := by
  simpa only [storedBlob, List.foldl] using
    reached_twoVectors.requests mem_unit _ storedBlob_evaluated.1
      ⟨List.forall_mem_nil _, List.forall_mem_nil _, mem_items_of_places [1, 8] rfl,
        mem_items_of_places [5, 9] rfl, mem_items_of_places [0] rfl, trivial⟩

set_option maxRecDepth 20000 in
/--
The check of one copy finds three cells, and the walk of the other succeeds. If the soft links lead
nowhere, the check of one copy and the walk of the other fail alike.
-/
theorem storedBlob_agreeing :
    (storedBlob.site ()).Copies doubleVector otherVector ∧
      (storedBlob.site ()).Copies strayVector otherStray ∧
      ((checkComplete otherVector).run.run (storedBlob.site ())).1 = .ok 3 ∧
      (∃ link, ((make .persisted doubleVector).run.run (storedBlob.site ())).1 = .ok link) ∧
      ((checkComplete otherStray).run.run (storedBlob.site ())).1 =
        .error (.cell (.missingData Digest.absent)) ∧
      ((make .persisted strayVector).run.run (storedBlob.site ())).1 =
        .error (.cell (.missingData Digest.absent)) := by
  obtain ⟨-, hencodings, hempty, hempty', hcounted, hmissing, hentry⟩ := storedBlob_evaluated
  obtain ⟨hinj, hacyclic⟩ := injOn_acyclic_of_everyEncoding hencodings
  have hitems : ∀ item ∈ [Item.cell doubleVector, .cell otherVector, .cell strayVector,
      .cell otherStray], item ∈ storedBlob.items := mem_items_of_places [3, 7, 10, 11] rfl
  have hcopies : (storedBlob.site ()).Copies doubleVector otherVector :=
    copies_vectors (Option.isNone_iff_eq_none.1 (hempty 2 (by decide)))
      (Option.isNone_iff_eq_none.1 (hempty 6 (by decide)))
  have hstray : (storedBlob.site ()).Copies strayVector otherStray :=
    copies_vectors (Option.isNone_iff_eq_none.1 (hempty' 8 (by decide)))
      (Option.isNone_iff_eq_none.1 (hempty' 9 (by decide)))
  obtain ⟨hsucceeds, -⟩ := reached_storedBlob.agreeing hinj hacyclic () toPersisted
    (.inl (hitems _ (by simp))) (.inl (hitems _ (by simp))) hcopies
  obtain ⟨-, -, hfails⟩ := reached_storedBlob.agreeing hinj hacyclic () toPersisted
    (.inl (hitems _ (by simp))) (.inl (hitems _ (by simp))) hstray
  obtain ⟨digest, heq, -, hwalk⟩ := hfails _ hmissing
  cases heq
  exact ⟨hcopies, hstray, hcounted, hsucceeds 3 hcounted, hmissing, hwalk.2 hentry⟩

set_option maxRecDepth 20000 in
/-- The walk of the vector succeeds, and the check of its copy does not. -/
theorem make_without_check : twoVectors.Reached ∧
    Set.InjOn Digest.of twoVectors.encodings ∧
    (∀ encoding, ¬Depends twoVectors.encodings encoding encoding) ∧
    doubleVector ∈ twoVectors.cells ∧ otherVector ∈ twoVectors.cells ∧
    (twoVectors.site ()).Copies doubleVector otherVector ∧
    ((make .persisted doubleVector).run.run (twoVectors.site ())).1.isOk ∧
    ((checkComplete otherVector).run.run (twoVectors.site ())).1 =
      .error (.cell (.missingData largeBlob.digest)) := by
  obtain ⟨-, hencodings, hempty, hwalk, hcheck⟩ := twoVectors_evaluated
  obtain ⟨hinj, hacyclic⟩ := injOn_acyclic_of_everyEncoding hencodings
  have hcopies : (twoVectors.site ()).Copies doubleVector otherVector :=
    copies_vectors (Option.isNone_iff_eq_none.1 (hempty 2 (by decide)))
      (Option.isNone_iff_eq_none.1 (hempty 6 (by decide)))
  refine ⟨reached_twoVectors, hinj, hacyclic, .inl ?_, .inl ?_, hcopies, hwalk, hcheck⟩
  · exact .tail _ (.tail _ (.tail _ (.head _)))
  · exact .tail _ (.tail _ (.tail _ (.tail _ (.tail _ (.tail _ (.tail _ (.head _)))))))

end Session

end CellGraph
