import CellGraph.Proofs.Store.DepositLaw
import CellGraph.Proofs.Walk.Agenda

/-!
# Stores that only walks have written to

If a user never puts a single cell into the only store, and gives no cell to a soft link, then what
the store has is brought up in depth: whatever a stored link names, or an entry, has been brought to
the same status, and what soft links hold has an entry.

* `Site.Asked`, `StoreAction.Asks`: computations that ask for cells, and write nothing;
* `Site.Tended`, `Origin.Orderly`: what is true of such a store and of what is known;
* `Origin.Orderly.ask`, `Origin.Orderly.advance`, `Origin.Orderly.insert`: the steps that keep it;
* `Origin.Orderly.brought`: a link whose target has been dealt with;
* `Origin.tending`: the law of walks.
-/

namespace CellGraph

open StoreAction

/-! ### Asking -/

/--
Nothing has been done but to ask for cells: no link has been found to be stored, and what soft links
have come to hold has an entry.
-/
structure Site.Asked (site site' : Site) : Prop where
  store : site'.store = site.store
  novel : site'.novel = site.novel
  learns : site.known.Learns site'.known
  kept : ∀ (label : Label) (cell : Cell), site'.known.kept[label]? = some cell →
    site.known.kept[label]? = some cell ∨
      ∃ status, site.store.find? cell.digest = some (cell.encode, status)

theorem Site.Asked.refl (site : Site) : site.Asked site :=
  ⟨rfl, rfl, .refl _, fun _ _ h => .inl h⟩

theorem Site.Asked.trans {site site' site'' : Site} (h : site.Asked site')
    (h' : site'.Asked site'') : site.Asked site'' := by
  refine ⟨h'.store.trans h.store, h'.novel.trans h.novel, h.learns.trans h'.learns,
    fun label cell hcell => ?_⟩
  rcases h'.kept label cell hcell with hcell | hentry
  · exact h.kept label cell hcell
  · exact .inr (h.store ▸ hentry)

/-- Only labels have been used, and digests and encodings noted. -/
theorem Site.Asked.of_notes (site : Site) {next : Label} {noted : Knowledge}
    (hnext : site.known.next ≤ next) (hnotes : Knowledge.Notes { site.known with next } noted) :
    site.Asked { site with known := noted } :=
  ⟨rfl, rfl, (Knowledge.Learns.of_next hnext).trans hnotes.learns,
    fun _ _ hcell => .inl (hnotes.kept ▸ hcell)⟩

theorem Site.Asked.moves {site site' : Site} (h : site.Asked site') : site.Moves site' :=
  ⟨h.learns.toGrows, h.store ▸ .refl _⟩

namespace StoreAction

variable {α β : Type}

/-- The computation asks for cells, and writes nothing. -/
def Asks (action : StoreAction α) : Prop :=
  ∀ site : Site, site.store.Keyed → site.Asked (action.run.run site).2

namespace Asks

theorem pure (a : α) : Asks (Pure.pure a) := fun site _ => .refl site

theorem throw (fault : StoreFault) : Asks (MonadExcept.throw fault : StoreAction α) :=
  fun site _ => .refl site

theorem bind {first : StoreAction α} {next : α → StoreAction β} (hfirst : Asks first)
    (hnext : ∀ a, Asks (next a)) : Asks (first >>= next) := by
  intro site hkeyed
  have hasked := hfirst site hkeyed
  rw [run_run_bind]
  rcases hrun : first.run.run site with ⟨fault | a, site'⟩ <;> rw [hrun] at hasked
  · exact hasked
  · exact hasked.trans (hnext a site' (hasked.store.symm ▸ hkeyed))

theorem get_bind {next : Site → StoreAction β} (hnext : ∀ site, Asks (next site)) :
    Asks (MonadState.get >>= next) :=
  fun site hkeyed => hnext site site hkeyed

theorem foldlM {list : List β} {step : α → β → StoreAction α}
    (hstep : ∀ b ∈ list, ∀ a, Asks (step a b)) (a : α) : Asks (list.foldlM step a) := by
  induction list generalizing a with
  | nil => exact pure a
  | cons b rest ih =>
    exact (hstep b (List.mem_cons_self ..) a).bind
      (ih fun c hc => hstep c (List.mem_cons_of_mem _ hc))

/-- Digests and encodings are noted. -/
theorem ofCalc {step : Calc α} (h : Calc.OnlyNotes step) : Asks (StoreAction.ofCalc step) :=
  fun site _ => .of_notes site le_rfl (h site.known)

/-- A link to a cell is made. -/
theorem link (cell : Cell) : Asks (StoreAction.ofCalc cell.link) :=
  fun site _ => .of_notes site (Nat.le_succ _) (.refl _)

theorem get (key : Digest) : Asks (StoreAction.get key) := by
  intro site _
  obtain ⟨next, noted, hnext, hnotes, hrun⟩ := run_get key site
  rw [hrun]
  exact .of_notes site hnext hnotes

theorem lookup (key : Digest) : Asks (StoreAction.lookup key) := by
  refine (get key).bind fun found => ?_
  cases found with
  | none => exact pure none
  | some cell =>
    refine (ofCalc cell.onlyNotes_hash).bind fun actual => ?_
    split
    · exact pure _
    · exact throw _

/-- A soft link may come to hold what the store gives for it. -/
theorem resolve (link : Link) : Asks (StoreAction.resolve link) := by
  intro site hkeyed
  cases hresident : site.known.resident link with
  | some cell =>
    rw [run_resolve_of_resident hresident]
    exact .refl site
  | none =>
    cases hentry : site.store.find? link.digest with
    | none =>
      obtain ⟨next, noted, hnext, hnotes, hrun⟩ := run_resolve_of_none hkeyed hresident hentry
      rw [hrun]
      exact .of_notes site hnext hnotes
    | some entry =>
      obtain ⟨cell, next, noted, hnext, hnotes, hread, hrun⟩ :=
        run_resolve_of_some hkeyed hresident (show _ = some (entry.1, entry.2) from hentry)
      rw [hrun]
      refine (Site.Asked.of_notes site hnext hnotes).trans
        ⟨rfl, rfl, ?_, fun label other hother => ?_⟩
      · refine .trans ?_ (.advance_verified _ _)
        split
        · exact .refl _
        · exact .keep _ _ _
      · change (if cell.isSmall then noted else noted.keep link cell).kept[label]? = _ at hother
        split at hother
        · exact .inl hother
        · rw [Knowledge.kept_keep] at hother
          split at hother
          · cases hother
            obtain ⟨status, hfound⟩ := hkeyed.of_read hread
            have hdigest : link.digest = cell.digest := hkeyed.key _ _ _ hfound
            exact .inr ⟨status, hdigest ▸ hfound⟩
          · exact .inl hother

theorem countWithin (hops : Nat) (cell : Cell) : Asks (cell.countWithin hops) := by
  induction hops generalizing cell with
  | zero => exact throw _
  | succ hops ih =>
    -- The induction is on the cell: targets that it holds are counted with it.
    show Asks (Cell.countLinks (Cell.countWithin hops) cell)
    induction cell using Cell.induct with
    | step label value ihCell =>
      rw [Cell.countLinks_mk]
      refine foldlM (fun link hlink total => ?_) 1
      have hcount : Asks (link.countBelow (Cell.countWithin hops)) := by
        cases link with
        | direct label target => exact ihCell _ hlink target rfl
        | soft label digest => exact (resolve _).bind ih
      exact hcount.bind fun _ => pure _

theorem checkComplete (cell : Cell) : Asks (StoreAction.checkComplete cell) :=
  .get_bind fun _ => countWithin _ cell

theorem read (settings : Settings) (key : Digest) : Asks (settings.read key) := by
  rw [Settings.read]
  split
  · exact lookup key
  · exact get key

/-- A lookup may check all that is below the cell. -/
theorem find (settings : Settings) (key : Digest) : Asks (settings.lookup key) := by
  rw [Settings.lookup_eq]
  refine (read settings key).bind fun found => ?_
  split
  · cases found with
    | none => exact pure none
    | some cell =>
      have hcheck : Asks (discard (StoreAction.checkComplete cell)) := by
        simp only [Functor.discard, LawfulFunctor.map_const, Function.comp_apply, map_eq_pure_bind]
        exact (checkComplete cell).bind fun _ => pure _
      exact hcheck.bind fun _ => pure _
  · exact pure found

end Asks

end StoreAction

/-! ### What is true in depth -/

/--
Whatever a stored link names has been brought to the status of the link, and whatever an entry names
to that of the entry. Nothing is missing below entries, and soft links hold what has an entry.
-/
structure Site.Tended (held : Set Link) (site : Site) : Prop where
  links : ∀ link ∈ held, .stored ≤ site.known.statusAt link.label → ∀ digest ∈ link.named,
    View.Brought site.store.find? (site.known.statusAt link.label) digest
  entries : ∀ key encoding status, site.store.find? key = some (encoding, status) →
    ∀ digest ∈ encoding.named, View.Brought site.store.find? status digest
  whole : site.store.Whole
  kept : ∀ (label : Label) (cell : Cell), site.known.kept[label]? = some cell →
    ∃ status, site.store.find? cell.digest = some (cell.encode, status)

theorem View.Brought.grows {store store' : Store} {status status' : Status} {digest : Digest}
    (h : View.Brought store.find? status digest) (hgrows : store.Grows store')
    (hle : status' ≤ status) : View.Brought store'.find? status' digest :=
  h.mono hle hgrows.entry

/-- What has been brought to a status is backed. -/
theorem View.Brought.backs {store : Store} {status : Status} {digest : Digest}
    (h : View.Brought store.find? status digest) : store.Backs digest status := by
  cases h with
  | entry find le => exact ⟨_, _, find, .inl le⟩
  | small find small => exact ⟨_, _, find, .inr small⟩

/-- Nothing else of a site is looked at than what is known and what is stored. -/
theorem Site.Tended.of_eq {held : Set Link} {site site' : Site} (h : site.Tended held)
    (hknown : site'.known = site.known) (hstore : site'.store = site.store) :
    site'.Tended held := by
  obtain ⟨known, store, novel, journal⟩ := site'
  obtain rfl : known = site.known := hknown
  obtain rfl : store = site.store := hstore
  exact ⟨h.links, h.entries, h.whole, h.kept⟩

/-- Fewer links are looked at. -/
theorem Site.Tended.restrict {held held' : Set Link} {site : Site} (h : site.Tended held')
    (hsub : held ⊆ held') : site.Tended held :=
  ⟨fun link hlink => h.links link (hsub hlink), h.entries, h.whole, h.kept⟩

/-- Asking for cells changes nothing in depth. -/
theorem Site.Tended.ask {held held' : Set Link} {site site' : Site} (h : site.Tended held)
    (hasked : site.Asked site')
    (hfresh : ∀ link ∈ held', link ∉ held → site.known.statusAt link.label = .unknown) :
    site'.Tended held' := by
  refine ⟨fun link hlink hstored => ?_, hasked.store ▸ h.entries, hasked.store ▸ h.whole,
    fun label cell hcell => ?_⟩
  · have heq := hasked.learns.stored link.label hstored
    rw [heq] at hstored ⊢
    have hheld : link ∈ held := by
      by_contra hnot
      rw [hfresh link hlink hnot] at hstored
      exact absurd hstored (by decide)
    rw [hasked.store]
    exact h.links link hheld hstored
  · rw [hasked.store]
    exact (hasked.kept label cell hcell).elim (h.kept label cell) id

namespace Origin

theorem covers_eq {origin origin' : Origin} (h : origin'.encodings = origin.encodings) :
    origin'.Covers = origin.Covers :=
  funext fun _ => propext ⟨fun hcell => ⟨hcell.sound, h ▸ hcell.large⟩,
    fun hcell => ⟨hcell.sound, h.symm ▸ hcell.large⟩⟩

/-- A site whose store is tended, with the encodings of the cells that there are to be written. -/
structure Orderly (origin : Origin) (held : Set Link) (site : Site) : Prop
    extends Site.Tended held site where
  coherent : Coherent origin.Covers held site.known
  store : site.store.Sound
  remembers : ∀ cell, site.store.Remembers cell → cell.Within origin.Covers held
  encodings : ∀ key encoding status, site.store.find? key = some (encoding, status) →
    encoding ∈ origin.encodings

variable {origin : Origin} {held : Set Link} {site : Site} {link : Link} {cell : Cell} {α : Type}

namespace Orderly

/-- The point in time that an orderly site is. -/
def now (h : origin.Orderly held site) : Origin where
  held := held
  known := site.known
  encodings := origin.encodings
  unused := h.coherent.status

theorem covers_now (h : origin.Orderly held site) : h.now.Covers = origin.Covers := covers_eq rfl

/-- What is true of all computations on stores is true from now on. -/
theorem inv (h : origin.Orderly held site) : h.now.Inv held site where
  coherent := h.covers_now ▸ h.coherent
  subset := subset_rfl
  known := .refl _
  fresh _ hlink hnot := absurd hlink hnot
  store := h.store
  remembers := h.covers_now ▸ h.remembers
  encodings := h.encodings
  vouched _ _ _ hne := absurd rfl hne
  raised _ _ _ _ hne := absurd rfl hne
  closed _ key encoding status hentry digest hdigest :=
    .inl (h.entries key encoding status hentry digest hdigest).backs

/-- A computation that asks for cells. -/
theorem ask (h : origin.Orderly held site) {action : StoreAction α} (hasks : Asks action)
    {post : α → Set Link → Site → Prop}
    (hkeeps : h.now.law.Keeps held (fun _ => True) action post) :
    ∃ held', held ⊆ held' ∧ origin.Orderly held' (action.run.run site).2 ∧
      site.Asked (action.run.run site).2 ∧
      ∀ a, (action.run.run site).1 = .ok a → post a held' (action.run.run site).2 := by
  obtain ⟨held', hsub, hinv, -, hpost⟩ := hkeeps site h.inv trivial
  have hasked := hasks site h.store.keyed
  have htended : (action.run.run site).2.Tended held' :=
    h.toTended.ask hasked fun link hlink hnot => h.coherent.status _ (hinv.fresh link hlink hnot)
  exact ⟨held', hsub, { htended with
    coherent := h.covers_now ▸ hinv.coherent
    store := hinv.store
    remembers := h.covers_now ▸ hinv.remembers
    encodings := hinv.encodings }, hasked, hpost⟩

/-- A soft link leads to the cell of its entry, and is missing it if there is none. -/
theorem follow (h : origin.Orderly held site) {label : Label} {digest : Digest}
    (hlink : .soft label digest ∈ held) :
    ∃ held', held ⊆ held' ∧
      origin.Orderly held' ((resolve (.soft label digest)).run.run site).2 ∧
      site.Asked ((resolve (.soft label digest)).run.run site).2 ∧
      match ((resolve (.soft label digest)).run.run site).1 with
      | .ok target => (target.Within origin.Covers held' ∧
          ((resolve (.soft label digest)).run.run site).2.Leads (.soft label digest) target ∧
          target.encode ∈ origin.encodings) ∧
        ∃ status, site.store.find? digest = some (target.encode, status)
      | .error fault => fault = .cell (.missingData digest) ∧ site.store.find? digest = none := by
  have hkeeps : h.now.law.Keeps held (fun _ => True) (resolve (.soft label digest)) _ :=
    Origin.keeps_resolve hlink
  rw [h.covers_now] at hkeeps
  obtain ⟨held', hsub, horderly, hasked, hpost⟩ := h.ask (.resolve _) hkeeps
  refine ⟨held', hsub, horderly, hasked, ?_⟩
  have hfound : ∀ target, ((resolve (.soft label digest)).run.run site).1 = .ok target →
      (∃ status, site.store.find? digest = some (target.encode, status)) →
      (target.Within origin.Covers held' ∧
          ((resolve (.soft label digest)).run.run site).2.Leads (.soft label digest) target ∧
          target.encode ∈ origin.encodings) ∧
        ∃ status, site.store.find? digest = some (target.encode, status) :=
    fun target houtcome hentry =>
      ⟨⟨(hpost target houtcome).1.1, (hpost target houtcome).1.2, (hpost target houtcome).2 rfl⟩,
        hentry⟩
  cases hresident : site.known.resident (.soft label digest) with
  | some target =>
    have hdigest : target.digest = digest := h.coherent.digest _ hlink target hresident
    have hkept := hdigest ▸ h.kept label target hresident
    rw [run_resolve_of_resident hresident] at hfound ⊢
    exact hfound target rfl hkept
  | none =>
    cases hentry : site.store.find? digest with
    | none =>
      obtain ⟨_, _, -, -, hrun⟩ := run_resolve_of_none h.store.keyed hresident hentry
      rw [hrun]
      exact ⟨rfl, rfl⟩
    | some entry =>
      obtain ⟨target, _, _, -, -, hread, hrun⟩ := run_resolve_of_some h.store.keyed hresident
        (show site.store.find? digest = some (entry.1, entry.2) from hentry)
      rw [hrun] at hfound ⊢
      have hend := hfound target rfl (h.store.of_read hread)
      rw [hentry] at hend
      exact hend

/-- Digests and encodings are noted. -/
theorem note (h : origin.Orderly held site) {known : Knowledge} (hnotes : site.known.Notes known) :
    origin.Orderly held { site with known } :=
  { h.toTended.ask (.of_notes site le_rfl hnotes) fun _ hlink hnot => absurd hlink hnot with
    coherent := h.coherent.notes hnotes
    store := h.store
    remembers := h.remembers
    encodings := h.encodings }

/-- A link is given a status to which all that it names has been brought. -/
theorem advance (h : origin.Orderly held site) (hlink : link ∈ held) {status : Status}
    (hbrought : ∀ digest ∈ link.named, View.Brought site.store.find? status digest) :
    origin.Orderly held { site with known := site.known.advance link status } where
  coherent := h.coherent.advance hlink status
  store := h.store
  remembers := h.remembers
  encodings := h.encodings
  entries := h.entries
  whole := h.whole
  kept := h.kept
  links other hother hstored digest hdigest := by
    dsimp only at hstored ⊢
    rw [Knowledge.statusAt_advance] at hstored ⊢
    by_cases heq : link.label = other.label
    · obtain rfl := h.coherent.label_inj link hlink other hother heq
      rw [if_pos rfl, Status.max_eq] at hstored ⊢
      rcases max_choice (site.known.statusAt link.label) status with hmax | hmax <;>
        rw [hmax] at hstored ⊢
      · exact h.links link hlink hstored digest hdigest
      · exact hbrought digest hdigest
    · rw [if_neg heq] at hstored ⊢
      exact h.links other hother hstored digest hdigest

/-- A cell is written, once all that it names has been brought to the status. -/
theorem insert (h : origin.Orderly held site) (hinj : Set.InjOn Digest.of origin.encodings)
    (hcell : cell.Within origin.Covers held) (hencoding : cell.encode ∈ origin.encodings)
    {status : Status} (hstored : .stored ≤ status)
    (hbrought : ∀ digest ∈ cell.named, View.Brought site.store.find? status digest)
    (novel : List Digest) (journal : List Store) :
    origin.Orderly held { site with
      store := (site.store.insert cell cell.encode cell.digest status).2, novel, journal } := by
  have hsound := sound_of_within h.coherent hcell
  have hgrows := h.store.legible.grows_insert cell cell.digest status
  have hnamed := Cell.named_encode hsound
  refine ⟨⟨fun link hlink hstored digest hdigest => ?_, fun key encoding _ hentry => ?_,
    ?_, fun label other hother => ?_⟩, h.coherent, h.store.insert hsound rfl hstored,
    fun other hother => ?_, fun key encoding status hentry => ?_⟩
  · exact (h.links link hlink hstored digest hdigest).grows hgrows le_rfl
  · intro digest hdigest
    rcases h.store.legible.of_find?_insert hentry with
      ⟨previous, hprevious, hheld⟩ | ⟨-, -, rfl, rfl⟩
    · have hold := h.entries key encoding previous hprevious digest hdigest
      rcases hheld with rfl | ⟨rfl, rfl⟩
      · exact hold.grows hgrows le_rfl
      · -- The entry that was there has the digest of the cell, hence its encoding.
        obtain rfl : encoding = cell.encode :=
          hinj (h.encodings _ _ _ hprevious) hencoding (h.store.key _ _ _ hprevious).symm
        rw [Status.max_eq]
        rcases max_choice previous status with hmax | hmax <;> rw [hmax]
        · exact hold.grows hgrows le_rfl
        · exact (hbrought digest (hnamed ▸ hdigest)).grows hgrows le_rfl
    · exact (hbrought digest (hnamed ▸ hdigest)).grows hgrows le_rfl
  · exact h.whole.insert h.store cell.digest status
      fun digest hdigest => (hbrought digest (hnamed ▸ hdigest)).isSome
  · obtain ⟨held', hentry⟩ := h.kept label other hother
    obtain ⟨status', -, hentry'⟩ := hgrows.entry _ _ _ hentry
    exact ⟨status', hentry'⟩
  · rcases Store.remembers_insert hother with hother | rfl
    · exact h.remembers other hother
    · exact hcell
  · rcases h.store.legible.of_find?_insert hentry with ⟨previous, hprevious, -⟩ | ⟨-, -, rfl, -⟩
    · exact h.encodings key encoding previous hprevious
    · exact hencoding

/-- Where all links of a cell have a status, all that it names has been brought to the status. -/
theorem brought_of_reached (h : origin.Orderly held site) (hcell : cell.Within origin.Covers held)
    {goal : Status} (hstored : .stored ≤ goal) (hreached : site.Reached goal cell.links) :
    ∀ digest ∈ cell.named, View.Brought site.store.find? goal digest := by
  intro digest hdigest
  obtain ⟨link, hlink, hnamed⟩ := Cell.mem_named.1 hdigest
  have hle := hreached link hlink
  have hheld := hcell.links link (Cell.mem_everyLink_of_mem hlink)
  exact (h.links link hheld (hstored.trans hle) digest hnamed).grows (.refl _) hle

/-- All that a link names has been brought to a status if its target has been dealt with. -/
theorem brought (h : origin.Orderly held site) (hcell : cell.Within origin.Covers held)
    (hleads : site.Leads link cell) {status : Status}
    (hbrought : ∀ digest ∈ cell.named, View.Brought site.store.find? status digest)
    (hwritten : cell.isSmall = false → ∃ encoding held,
      site.store.find? cell.digest = some (encoding, held) ∧ status ≤ held) :
    ∀ digest ∈ link.named, View.Brought site.store.find? status digest := by
  cases hinline : link.inline? with
  | some target =>
    obtain rfl := hleads.inline target hinline
    rw [Link.named_of_inline hinline]
    exact hbrought
  | none =>
    rw [Link.named_of_not_inline hinline]
    rintro digest hdigest
    obtain rfl := List.mem_singleton.1 hdigest
    cases hsmall : cell.isSmall with
    | false =>
      obtain ⟨encoding, held, hentry, hle⟩ := hwritten hsmall
      exact .entry (hleads.digest ▸ hentry) hle
    | true =>
      obtain ⟨held, hentry⟩ := hleads.entry hinline hsmall
      refine .small hentry ((Cell.isSmall_iff cell).1 hsmall) fun digest hdigest =>
        hbrought digest ?_
      exact Cell.named_encode (sound_of_within h.coherent hcell) ▸ hdigest

/-- The entry of a link's target tells to what all that the link names has been brought. -/
theorem brought_of_entry (h : origin.Orderly held site)
    (hinj : Set.InjOn Digest.of origin.encodings) (hcell : cell.Within origin.Covers held)
    (hencoding : cell.encode ∈ origin.encodings) (hleads : site.Leads link cell)
    {encoding : Bytes} {status : Status}
    (hentry : site.store.find? cell.digest = some (encoding, status)) :
    ∀ digest ∈ link.named, View.Brought site.store.find? status digest := by
  obtain rfl : encoding = cell.encode :=
    hinj (h.encodings _ _ _ hentry) hencoding (h.store.key _ _ _ hentry).symm
  have hbrought := h.entries _ _ _ hentry
  rw [Cell.named_encode (sound_of_within h.coherent hcell)] at hbrought
  exact h.brought hcell hleads hbrought fun _ => ⟨_, status, hentry, le_rfl⟩

end Orderly

/-- The law of walks on a store that is tended. -/
def tending (origin : Origin) : Law Site where
  inv := origin.Orderly
  le _ site _ site' := site.Moves site'
  refl _ site := .refl site
  trans h h' := Site.Moves.trans h h'

end Origin

end CellGraph
