import CellGraph.Proofs.Store.Origin

/-!
# Computations on a store

Reading, writing, taking over a status: each keeps the invariant of a site, whatever becomes of it.

* `Origin.law`: the law that all computations on a store keep;
* `Law.Extends`: computations on cells, as computations on a store;
* `Origin.keeps_get`, `Origin.keeps_resolve`: reading;
* `Origin.keeps_adopt`, `Origin.keeps_write`: taking over a status, and writing.
-/

namespace CellGraph

open StoreAction

/-- What is known and the store only grow. -/
structure Site.Moves (site site' : Site) : Prop where
  known : site.known.Grows site'.known
  store : site.store.Grows site'.store

theorem Site.Moves.refl (site : Site) : site.Moves site := ⟨.refl _, .refl _⟩

theorem Site.Moves.trans {site site' site'' : Site} (h : site.Moves site')
    (h' : site'.Moves site'') : site.Moves site'' :=
  ⟨h.known.trans h'.known, h.store.trans h'.store⟩

/-- A link that holds nothing did not hold anything before. -/
theorem Site.Moves.resident_eq_none {site site' : Site} (h : site.Moves site') {link : Link}
    (hresident : site'.known.resident link = none) : site.known.resident link = none :=
  h.known.resident_eq_none hresident

theorem Site.Moves.entry {site site' : Site} (h : site.Moves site') {key : Digest}
    {encoding : Bytes} (hentry : ∃ status, site.store.find? key = some (encoding, status)) :
    ∃ status, site'.store.find? key = some (encoding, status) := by
  obtain ⟨status, hentry⟩ := hentry
  obtain ⟨status', -, hentry'⟩ := h.store.entry key encoding status hentry
  exact ⟨status', hentry'⟩

/-- The law of computations on a store. -/
def Origin.law (origin : Origin) : Law Site where
  inv := origin.Inv
  le _ site _ site' := site.Moves site'
  refl _ site := .refl site
  trans h h' := Site.Moves.trans h h'

/-- The links have at least this status. -/
def Site.Reached (goal : Status) (links : List Link) (site : Site) : Prop :=
  ∀ link ∈ links, goal ≤ site.known.statusAt link.label

theorem Site.Reached.mono {goal : Status} {links : List Link} {site site' : Site}
    (h : site.Reached goal links) (hmoves : site.Moves site') : site'.Reached goal links :=
  fun link hlink => (h link hlink).trans (hmoves.known.status link.label)

/-- A link has at least this status, and so has the entry of its target where it is due. -/
structure Site.Delivered (goal : Status) (link : Link) (due : Prop) (site : Site) : Prop where
  status : goal ≤ site.known.statusAt link.label
  entry : due → site.store.HasAt link.digest goal

theorem Site.Delivered.mono {goal goal' : Status} {link : Link} {due due' : Prop} {site : Site}
    (h : site.Delivered goal' link due') (hle : goal ≤ goal') (hdue : due → due') :
    site.Delivered goal link due :=
  ⟨hle.trans h.status, fun hyp => (h.entry (hdue hyp)).mono (.refl _) hle⟩

/-- A cell is the target of a link. If it is small but not inline, the store has it. -/
structure Site.Leads (site : Site) (link : Link) (target : Cell) : Prop where
  digest : target.digest = link.digest
  held : ∀ t, link.target? = some t → t = target
  entry : link.inline? = none → target.isSmall →
    ∃ status, site.store.find? link.digest = some (target.encode, status)

theorem Site.Leads.inline {site : Site} {link : Link} {target : Cell} (h : site.Leads link target)
    (t : Cell) (ht : link.inline? = some t) : t = target :=
  h.held t (Link.target?_of_inline ht)

/-- A direct link leads to the cell that it holds. -/
theorem Site.Leads.direct (site : Site) (label : Label) (target : Cell) :
    site.Leads (.direct label target) target := by
  refine ⟨rfl, fun t ht => ?_, fun hinline hsmall => ?_⟩
  · cases ht
    rfl
  · rw [Link.inline?, if_pos hsmall] at hinline
    cases hinline

theorem Site.Leads.mono {site site' : Site} {link : Link} {target : Cell}
    (h : site.Leads link target) (hmoves : site.Moves site') : site'.Leads link target :=
  ⟨h.digest, h.held, fun hinline hsmall => hmoves.entry (h.entry hinline hsmall)⟩

/-- A link to a small target is excused. -/
theorem Site.Leads.excuses {site : Site} {link : Link} {target : Cell} (h : site.Leads link target)
    (hsmall : target.isSmall = true) : site.store.Excuses link := by
  cases link with
  | direct label t =>
    obtain rfl := h.held t rfl
    exact hsmall
  | soft label digest =>
    obtain ⟨held, hentry⟩ := h.entry rfl hsmall
    exact ⟨_, held, hentry, (Cell.isSmall_iff target).1 hsmall⟩

/-! ### Computations on cells -/

/-- A law of stores that computations on cells keep as they keep a law of what is known. -/
structure Law.Extends (law : Law Site) (inner : Law Knowledge) : Prop where
  known : ∀ {held site}, law.inv held site → inner.inv held site.known
  learn : ∀ {held held' site known}, law.inv held site → held ⊆ held' → inner.inv held' known →
    inner.le held site.known held' known →
      law.inv held' { site with known } ∧ law.le held site held' { site with known }

namespace Law.Extends

variable {law : Law Site} {inner : Law Knowledge} {held : Set Link} {α : Type} {attempt : Attempt α}
  {post : α → Set Link → Prop}

/-- A computation on cells, whose outcome is looked at afterwards. -/
theorem keeps_outcome (h : law.Extends inner)
    (hkeeps : inner.Keeps held (fun _ => True) attempt fun a held' _ => post a held') :
    law.Keeps held (fun _ => True) (ofCalc attempt.run)
      fun outcome held' _ => ∀ a, outcome = .ok a → post a held' := by
  intro site hinv _
  obtain ⟨held', hsub, hinner, hle, hpost⟩ := hkeeps site.known (h.known hinv) trivial
  obtain ⟨hinv', hle'⟩ := h.learn hinv hsub hinner hle
  refine ⟨held', hsub, hinv', hle', ?_⟩
  rintro _ ⟨⟩
  exact hpost

/-- A computation on cells. -/
theorem keeps_ofAttempt (h : law.Extends inner)
    (hkeeps : inner.Keeps held (fun _ => True) attempt fun a held' _ => post a held') :
    law.Keeps held (fun _ => True) (ofAttempt attempt) fun a held' _ => post a held' := by
  intro site hinv htrivial
  obtain ⟨held', hsub, hinv', hle, hpost⟩ := h.keeps_outcome hkeeps site hinv htrivial
  exact ⟨held', hsub, hinv', hle, fun a ha => hpost _ rfl a (mapError_eq_ok.1 ha)⟩

/-- A computation on cells that cannot fail. -/
theorem keeps_ofCalc (h : law.Extends inner) {step : Calc α}
    (hkeeps : inner.Keeps held (fun _ => True) (liftM step : Attempt α)
      fun a held' _ => post a held') :
    law.Keeps held (fun _ => True) (ofCalc step) fun a held' _ => post a held' :=
  h.keeps_ofAttempt hkeeps

end Law.Extends

namespace Origin

variable {origin : Origin} {held : Set Link} {α : Type}

theorem extends_covers : origin.law.Extends (Knowledge.law origin.Covers) where
  known hinv := hinv.coherent
  learn hinv hsub hcoherent hmoves :=
    ⟨hinv.learn hsub hcoherent hmoves, hmoves.learns.toGrows, .refl _⟩

/-- Nothing changes but what is noted of digests and encodings. -/
theorem keeps_ofCalc {step : Calc α} (h : Calc.OnlyNotes step) :
    origin.law.Keeps held (fun _ => True) (ofCalc step) fun _ _ _ => True :=
  (extends_covers.keeps_ofCalc (Knowledge.keeps_notes h)).mono_right fun _ _ _ _ => trivial

/-! ### Reading -/

/-- An encoding that was there to be written is read as a cell that is covered. -/
theorem keeps_decode {encoding : Bytes} (hencoding : encoding ∈ origin.encodings) :
    origin.law.Keeps held (fun _ => True) (ofCalc (Cell.decode encoding).run)
      fun outcome held' _ => ∀ c, outcome = .ok c →
        c.Within origin.Covers held' ∧ c.encode = encoding := by
  refine extends_covers.keeps_outcome (Knowledge.keeps_decode fun c hsound hbytes => ⟨hsound, fun hlarge => ?_⟩)
  -- Of the cells that are read, only the one at the top can be large.
  rcases hbytes with hsmall | hbytes
  · rw [hlarge] at hsmall
    cases hsmall
  · exact hbytes ▸ hencoding

/-- What is read from the store is the cell of the entry. -/
theorem keeps_get (key : Digest) :
    origin.law.Keeps held (fun _ => True) (StoreAction.get key)
      fun found held' site => ∀ cell ∈ found, cell.Within origin.Covers held' ∧
        ∃ status, site.store.find? key = some (cell.encode, status) := by
  refine .get_bind fun site hinv _ => ?_
  -- A memory store gives a cell that it remembers, a table an encoding that has to be read.
  cases hstore : site.store with
  | memory entries =>
    refine .pure fun site' hinv' heq cell hcell => ?_
    obtain rfl : site' = site := heq
    obtain ⟨entry, hentry, rfl⟩ := Option.map_eq_some_iff.1 hcell
    refine ⟨hinv'.remembers _ ?_, entry.2, ?_⟩
    · rw [hstore]
      exact ⟨key, entry.2, hentry⟩
    · rw [hstore, Store.find?, hentry]
      rfl
  | table rows =>
    dsimp only
    cases hrow : Index.find? key.bytes rows with
    | none =>
      refine .pure fun _ _ _ cell hcell => ?_
      cases hcell
    | some row =>
      have hentry : ∃ status, site.store.find? key = some (row.encoding, status) := by
        obtain ⟨status, hstatus⟩ := hinv.store.row rows key.bytes row hstore hrow
        exact ⟨status, by simp [hstore, Store.find?, hrow, hstatus]⟩
      have hencoding : row.encoding ∈ origin.encodings := by
        obtain ⟨status, hentry⟩ := hentry
        exact hinv.encodings key _ status hentry
      refine (((keeps_decode hencoding).carry
        (fun site => ∃ status, site.store.find? key = some (row.encoding, status))
        fun _ _ _ _ hmoves h => hmoves.entry h).at_state hentry).bind fun outcome held' _ => ?_
      cases outcome with
      | error fault => exact .throw _
      | ok cell =>
        refine .pure fun site' _ hpost found hfound => ?_
        cases hfound
        obtain ⟨hcell, hencode⟩ := hpost.1 cell rfl
        rw [hencode]
        exact ⟨hcell, hpost.2⟩

/-- The target of a link, held or read from the store. -/
theorem keeps_resolve {link : Link} (hlink : link ∈ held) :
    origin.law.Keeps held (fun _ => True) (StoreAction.resolve link)
      fun cell held' site => (cell.Within origin.Covers held' ∧ site.Leads link cell) ∧
        (link.target? = none → cell.encode ∈ origin.encodings) := by
  refine .get_bind fun site hinv _ => ?_
  cases hresident : site.known.resident link with
  | some cell =>
    refine .pure fun site' hinv' heq => ?_
    obtain rfl : site' = site := heq
    have hcell := hinv'.coherent.resident hlink hresident
    have hdigest := hinv'.coherent.digest link hlink cell hresident
    cases link with
    | direct label target =>
      obtain rfl : target = cell := Option.some.inj hresident
      exact ⟨⟨hcell, .direct site' label target⟩, nofun⟩
    | soft label digest =>
      have hlarge := (hinv'.coherent.kept label cell hresident).2.1
      refine ⟨⟨hcell, hdigest, fun t ht => ?_, fun _ hsmall => ?_⟩,
        fun _ => hcell.good.large hlarge⟩
      · cases ht
      · rw [hlarge] at hsmall
        cases hsmall
  | none =>
    have hsoft : ∀ t, link.target? = some t → False := by
      intro t ht
      cases link with
      | direct => cases hresident
      | soft => cases ht
    refine (keeps_get link.digest).of_always.bind fun found held₁ hsub₁ => ?_
    refine .from_state fun site₁ hinv₁ hfound => ?_
    have haccept : origin.law.Keeps held₁ (fun _ => True) (ofAttempt (link.accept found))
        fun cell held' _ => cell.Within origin.Covers held' ∧ found = some cell ∧
          cell.digest = link.digest :=
      extends_covers.keeps_ofAttempt
        (Knowledge.keeps_accept (hsub₁ hlink) fun cell hcell => (hfound cell hcell).1)
    -- The entries that were found are still there once the link has been given its target.
    have hcarry := haccept.carry (fun site => ∀ cell ∈ found,
        ∃ status, site.store.find? link.digest = some (cell.encode, status))
      fun _ _ _ _ hmoves h cell hcell => hmoves.entry (h cell hcell)
    refine (hcarry.at_state fun cell hcell => (hfound cell hcell).2).mono (fun _ _ h => h)
      fun cell held₂ site₂ _ hinv₂ hpost => ?_
    obtain ⟨⟨hcell, rfl, hdigest⟩, hentry⟩ := hpost
    obtain ⟨status, hentry⟩ := hentry cell rfl
    exact ⟨⟨hcell, hdigest, fun t ht => (hsoft t ht).elim, fun _ _ => ⟨status, hentry⟩⟩,
      fun _ => hinv₂.encodings _ _ _ hentry⟩

/-! ### Taking over a status, and writing -/

theorem keeps_status (key : Digest) :
    origin.law.Keeps held (fun _ => True) (StoreAction.status? key)
      fun found _ site => found = (site.store.find? key).map Prod.snd := by
  refine .get_bind fun site hinv _ => ?_
  rw [hinv.store.legible.status?_eq]
  refine .pure fun site' _ heq => ?_
  rw [show site' = site from heq]

/-- A link is given a status with which it is settled, and for which the store vouches. -/
theorem keeps_advance {link : Link} (hlink : link ∈ held) (status : Status) :
    origin.law.Keeps held
      (fun site => site.store.Vouches status link ∧ (Set.InjOn Digest.of origin.encodings →
        origin.Settles site.store link.rank link.named status))
      (StoreAction.advance link status)
      fun _ _ site => status ≤ site.known.statusAt link.label := by
  intro site hinv hpre
  refine ⟨held, subset_rfl, hinv.advance hlink hpre.1 hpre.2, ⟨.advance _ _ _, .refl _⟩,
    fun _ _ => ?_⟩
  show status ≤ (site.known.advance link status).statusAt link.label
  rw [Knowledge.statusAt_advance, if_pos rfl, Status.max_eq]
  exact le_max_right _ _

/-- A link is given a status that the entry of its target has. -/
theorem keeps_deliver {link : Link} (hlink : link ∈ held) (status : Status) :
    origin.law.Keeps held
      (fun site => site.store.HasAt link.digest status ∧ (Set.InjOn Digest.of origin.encodings →
        origin.Settles site.store link.rank link.named status))
      (StoreAction.advance link status) fun _ _ site => site.Delivered status link True := by
  have hadvance : origin.law.Keeps held _ (StoreAction.advance link status) _ :=
    (keeps_advance hlink status).frame (fun site => site.store.HasAt link.digest status)
      fun _ _ _ _ hmoves h => h.mono hmoves.store le_rfl
  exact hadvance.mono (fun _ _ h => ⟨⟨.inl h.1, h.2⟩, h.1⟩) fun _ _ _ _ _ h => ⟨h.1, fun _ => h.2⟩

/-- The entry of a link's target settles the link with the status of the entry. -/
theorem Inv.settled_entry {site : Site} (h : origin.Inv held site)
    (hinj : Set.InjOn Digest.of origin.encodings) {link : Link} (hlink : link ∈ held)
    (hinline : ∀ t, link.inline? = some t → t.encode ∈ origin.encodings) {encoding : Bytes}
    {status : Status} (hentry : site.store.find? link.digest = some (encoding, status)) :
    origin.Settles site.store link.rank link.named status := by
  cases htarget : link.inline? with
  | none => exact .of_not_inline htarget ⟨encoding, status, hentry, .inl le_rfl⟩
  | some target =>
    have hheld := Link.target?_of_inline htarget
    have hdigest : link.digest = target.digest := by
      cases link with
      | soft => cases hheld
      | direct label t => cases hheld; rfl
    have heq : encoding = target.encode :=
      hinj (h.encodings _ _ _ hentry) (hinline target htarget)
        ((h.store.key _ _ _ hentry).symm.trans hdigest)
    have hsound := sound_of_within h.coherent (h.coherent.target link hlink target hheld)
    have hclosed := h.closed hinj _ _ _ hentry
    rw [heq, Cell.named_encode hsound] at hclosed
    exact .of_inline htarget hclosed

/-- Taking over the status of an entry. -/
theorem keeps_adopt {link : Link} (hlink : link ∈ held) (goal : Status)
    (hinline : ∀ t, link.inline? = some t → t.encode ∈ origin.encodings) :
    origin.law.Keeps held (fun _ => True) (adopt link link.digest goal)
      fun done _ site => done = true → site.Delivered goal link True := by
  refine (keeps_status link.digest).bind fun found held' hsub => ?_
  cases found with
  | none => exact .pure fun _ _ _ => nofun
  | some status =>
    dsimp only
    split
    · next hle =>
      refine .bind ((keeps_deliver (hsub hlink) status).mono_left fun site hinv hfound => ?_)
        fun _ _ _ => .pure fun _ _ h _ => h.mono hle id
      obtain ⟨entry, hentry, rfl⟩ := Option.map_eq_some_iff.1 hfound.symm
      exact ⟨⟨entry.1, entry.2, hentry, le_rfl⟩,
        fun hinj => hinv.settled_entry hinj (hsub hlink) hinline hentry⟩
    · exact .pure fun _ _ _ => nofun

/-- Writing a cell whose children have been dealt with. -/
theorem keeps_write {cell : Cell} (hcell : cell.Within origin.Covers held)
    (hencoding : cell.encode ∈ origin.encodings) {goal : Status} (hstored : .stored ≤ goal) :
    origin.law.Keeps held (·.Reached goal cell.links) (write cell cell.encode cell.digest goal)
      fun _ _ site => site.store.HasAt cell.digest goal := by
  refine ((keeps_ofCalc cell.onlyNotes_noteDigest).still (·.Reached goal cell.links)
    fun _ _ _ _ hmoves h => h.mono hmoves).bind fun _ held₁ hsub₁ =>
      .get_bind fun site hinv hreached => ?_
  have hcell₁ := hcell.mono hsub₁
  have hinsert := hinv.insert hcell₁ hencoding hstored
    fun hinj => hinv.settled_cell hinj hcell₁ hstored hreached
  have hfst := hinv.store.legible.insert_fst cell cell.encode cell.digest goal
  have hgrows := hinv.store.legible.grows_insert cell cell.digest goal
  have hself := hinv.store.legible.find?_insert_self cell cell.digest goal
  rcases hresult : site.store.insert cell cell.encode cell.digest goal with ⟨previous, store⟩
  rw [hresult] at hinsert hfst hgrows hself
  obtain rfl : previous = _ := hfst
  obtain ⟨encoding, status, hle, hentry⟩ := hself
  intro site' hinv' heq
  obtain rfl : site' = site := heq
  exact ⟨held₁, subset_rfl, hinsert _, ⟨.refl _, hgrows⟩,
    fun _ _ => ⟨encoding, status, hentry, hle⟩⟩

end Origin

end CellGraph
