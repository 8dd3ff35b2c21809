import CellGraph.Proofs.Computation.Guards
import CellGraph.Proofs.Walk.Course
import CellGraph.Proofs.Walk.Invariant

/-!
# Walks keep to their course

A walk along a course leaves a trace of what the course allows to be written, and fails only as the
course allows. This is shown for one link, whatever is done to the links of its target, then for all
links below a cell, and from that for whole walks. For one link a plan will do.

* `Plan.guards_walkTarget`, `Plan.guards_walkDirect`, `Plan.guards_walkSoft`: one link;
* `Plan.guards_walkBelow`: one link of a cell;
* `Course.follows_walkChildren`: all links below a cell, at every depth;
* `Plan.guards_make`, `Course.guards_walk`, `Course.guards_make`: whole walks.
-/

namespace CellGraph

open StoreAction

namespace Plan

variable {origin : Origin} {start : Site} {goal : Status} {held : Set Link}
  {plan : Plan origin start goal} {hops : Nat} {cell target : Cell} {link : Link}

/-! ### Actions of a walk -/

variable {written written' : Set Bytes} {fails : StoreFault → Site → Prop} {α : Type}

/-- Nothing happens but that digests and encodings are noted. -/
theorem guards_ofCalc {step : Calc α} (h : Calc.OnlyNotes step) :
    origin.law.Guards held (Site.Trace origin.encodings start goal written) (ofCalc step)
      (fun _ => Site.Trace origin.encodings start goal written) fails := by
  intro site _ htrace
  have hnotes := h site.known
  exact htrace.note hnotes.learns.toGrows hnotes.kept

/-- The status of an entry is taken over, or else the link is visited. -/
theorem guards_adopt {key : Digest} {visit : StoreAction Unit} {pre : Site → Prop}
    {post : Unit → Site → Prop}
    (hadopted : ∀ site encoding status, origin.Inv held site → pre site →
      site.store.find? key = some (encoding, status) → goal ≤ status →
      post () { site with known := site.known.advance link status })
    (hvisit : origin.law.Guards held (fun site => pre site ∧
        ∀ encoding status, site.store.find? key = some (encoding, status) → status < goal)
      visit post fails) :
    origin.law.Guards held pre (do unless ← adopt link key goal do visit) post fails := by
  intro site hinv hpre
  rcases run_unlessAdopted hinv.store.legible link key goal visit with
    ⟨encoding, status, hentry, hle, hrun⟩ | ⟨hlow, hrun⟩ <;> rw [hrun]
  · exact hadopted site encoding status hinv hpre hentry hle
  · exact hvisit site hinv ⟨hpre, hlow⟩

/-- The end of a visit: the target is written, if it is to stand alone. -/
theorem guards_finish (hw : origin.Watches start goal) (htarget : target.Within origin.Covers held)
    (hsub : written ⊆ written') {alone : Bool}
    (halone : alone = true → target.encode ∈ origin.encodings ∧ target.encode ∈ written') :
    origin.law.Guards held
      (fun site => Site.Trace origin.encodings start goal written site ∧
        site.Reached goal target.links)
      (link.finish goal target target.encode target.digest alone)
      (fun _ site => Site.Trace origin.encodings start goal written' site ∧
        (alone = true → site.store.Has target goal)) fails := by
  intro site hinv hpre
  obtain ⟨htrace, hreached⟩ := hpre
  cases alone with
  | false => exact ⟨(htrace.mono hsub).note (.advance _ _ _) rfl, nofun⟩
  | true =>
    obtain ⟨hencoding, hwritten⟩ := halone rfl
    have hnamed : ∀ digest ∈ target.encode.named, (site.store.find? digest).isSome := by
      rw [Cell.named_encode (Origin.sound_of_within hinv.coherent htarget)]
      exact fun digest hdigest => (Origin.Inv.backs hw htrace.moves hw.stored
        (hinv.settled_cell hw.inj htarget hw.stored hreached) digest hdigest).isSome
    have hput := htrace.put hinv.store hinv.encodings hw.inj hencoding
      (hinv.founded hw htrace.moves) hnamed hsub hwritten
    have hnotes := target.onlyNotes_noteDigest site.known
    have hend := (hput.note hnotes.learns.toGrows hnotes.kept).note
      (.advance _ link goal) rfl
    have hself := hinv.store.has_insert hinv.encodings hw.inj hencoding goal
    rw [Link.finish, if_pos rfl, run_run_bind, run_write hinv.store.legible]
    dsimp only
    by_cases h : ((site.store.find? target.digest).map Prod.snd).all (· < goal) = true
    · rw [if_pos h] at hend ⊢
      exact ⟨hend, fun _ => hself⟩
    · rw [if_neg h] at hend ⊢
      exact ⟨hend, fun _ => hself⟩

/-! ### One link -/

section

variable {children : StoreAction Unit}
  (hkeeps : ∀ held', held ⊆ held' → origin.law.Keeps held' (fun _ => True) children
    fun _ _ site => site.Reached goal target.links)
  (hchildren : ∀ held', held ⊆ held' → origin.law.Guards held' plan.Traced children
    (fun _ site => plan.Traced site) plan.fails)

include hkeeps hchildren

/-- A visit: `children` deals with the links of the target, which is written after that. -/
theorem guards_visit (hw : origin.Watches start goal) (htarget : target.Within origin.Covers held)
    (hsub : plan.written ⊆ written') {alone : Bool}
    (halone : alone = true → target.encode ∈ origin.encodings ∧ target.encode ∈ written') :
    origin.law.Guards held plan.Traced
      (do
        children
        link.finish goal target target.encode target.digest alone)
      (fun _ site => Site.Trace origin.encodings start goal written' site ∧
        (alone = true → site.store.Has target goal)) plan.fails := by
  refine .bind (hkeeps held subset_rfl).of_always (hchildren held subset_rfl)
    fun _ held' hsub' => ?_
  exact (guards_finish hw (htarget.mono hsub') hsub halone).mono (fun _ _ h => ⟨h.2, h.1⟩)
    fun _ _ h => h

/-- A visit to a link whose target is at hand. -/
theorem guards_walkTarget (hw : origin.Watches start goal)
    (htarget : target.Within origin.Covers held) (hsub : plan.written ⊆ written') {top : Bool}
    (halone : (top || decide (maxEmbedded < target.encode.length)) = true →
      target.encode ∈ origin.encodings ∧ target.encode ∈ written') :
    origin.law.Guards held plan.Traced (link.walkTarget goal top target target.encode children)
      (fun _ site => Site.Trace origin.encodings start goal written' site ∧
        (top = true → site.store.Has target goal)) plan.fails := by
  refine .bind (Origin.keeps_ofCalc target.onlyNotes_noteWritten).of_always
    (guards_ofCalc target.onlyNotes_noteWritten) fun _ held₁ hsub₁ => ?_
  have hvisit : origin.law.Guards held₁ plan.Traced
      (do
        children
        link.finish goal target target.encode target.digest
          (top || decide (maxEmbedded < target.encode.length)))
      (fun _ site => Site.Trace origin.encodings start goal written' site ∧
        (top = true → site.store.Has target goal)) plan.fails :=
    (guards_visit (fun held₂ hsub₂ => hkeeps held₂ (hsub₁.trans hsub₂))
      (fun held₂ hsub₂ => hchildren held₂ (hsub₁.trans hsub₂)) hw (htarget.mono hsub₁) hsub
      halone).mono (fun _ _ h => h) fun _ _ h =>
        ⟨h.1, fun htop => h.2 (Bool.or_eq_true_iff.2 (.inl htop))⟩
  dsimp only
  split
  · next htrue =>
    -- A target that is to stand alone may have an entry with the status.
    obtain ⟨hencoding, -⟩ := halone htrue
    refine guards_adopt (fun site found status hinv htrace hentry hle => ?_)
      (hvisit.mono (fun _ _ h => h.1.2) fun _ _ h => h)
    obtain rfl : found = target.encode :=
      hw.inj (hinv.encodings _ _ _ hentry) hencoding (hinv.store.key _ _ _ hentry).symm
    exact ⟨(htrace.2.mono hsub).note (.advance _ _ _) rfl, fun _ => ⟨status, hle, hentry⟩⟩
  · exact hvisit.mono (fun _ _ h => h.2) fun _ _ h => h

end

/-- A visit is made only to a link that does not have the status already. -/
theorem guards_unlessReached {visit : StoreAction Unit} {pre : Site → Prop}
    {post : Unit → Site → Prop}
    (hreached : ∀ site, pre site → goal ≤ site.known.statusAt link.label → post () site)
    (hvisit : origin.law.Guards held pre visit post fails) :
    origin.law.Guards held pre (do unless goal ≤ (← linkStatus link) do visit) post fails := by
  refine .get_bind fun site _ hpre => ?_
  split
  · next hle => exact .pure fun site' _ heq => heq ▸ hreached site hpre hle
  · exact hvisit.at_state hpre

/-- A walk of the links of a cell, whichever it is, as long as it is ready. -/
def Follows (plan : Plan origin start goal) (hops : Nat) (held : Set Link)
    (follow : Cell → StoreAction Unit) : Prop :=
  ∀ held' (target : Cell), held ⊆ held' → target.Within origin.Covers held' →
    plan.Ready hops target → origin.law.Guards held' plan.Traced (follow target)
      (fun _ site => plan.Traced site) plan.fails

theorem Follows.mono {held' : Set Link} {follow : Cell → StoreAction Unit}
    (h : plan.Follows hops held follow) (hsub : held ⊆ held') : plan.Follows hops held' follow :=
  fun held'' target hsub' => h held'' target (hsub.trans hsub')

/-- The target of a soft link that holds nothing, read from the store. -/
theorem guards_resolve (hsound : start.store.Sound) {label : Label} {digest : Digest}
    (hmissing : ∀ site, Site.Trace origin.encodings start goal written site →
      site.known.resident (.soft label digest) = none → site.store.find? digest = none →
      fails (.cell (.missingData digest)) site) :
    origin.law.Guards held
      (fun site => (Site.Trace origin.encodings start goal written site ∧
        site.known.resident (.soft label digest) = none) ∧ digest ∉ site.novel)
      (StoreAction.resolve (.soft label digest))
      (fun target site => Site.Trace origin.encodings start goal written site ∧
        start.Target (.soft label digest) target ∧ target.encode ∈ start.stops) fails := by
  rintro site hinv ⟨⟨htrace, hresident⟩, hnovel⟩
  cases hentry : site.store.find? digest with
  | none =>
    obtain ⟨next, noted, hnext, hnotes, hrun⟩ :=
      run_resolve_of_none hinv.store.keyed hresident hentry
    rw [hrun]
    refine hmissing _ (htrace.note ?_ hnotes.kept) ?_ hentry
    · exact (Knowledge.Learns.of_next hnext).toGrows.trans hnotes.learns.toGrows
    · rw [hnotes.resident_eq]
      exact hresident
  | some entry =>
    obtain ⟨target, next, noted, hnext, hnotes, hread, hrun⟩ :=
      run_resolve_of_some hinv.store.keyed hresident hentry
    have hgives : start.Gives digest target :=
      htrace.gives hinv.store (Nat.le_refl _) hnovel hread
    have hgrows : site.known.Grows noted :=
      (Knowledge.Learns.of_next hnext).toGrows.trans hnotes.learns.toGrows
    obtain ⟨status, hfound⟩ := hinv.store.of_read hread
    have hdigest : digest = target.digest := hinv.store.key _ _ _ hfound
    rw [hrun]
    refine ⟨htrace.learn ?_ fun other cell hcell => ?_, htrace.of_read hresident hgives,
      Site.mem_stops_of_gives hsound hgives⟩
    · refine (hgrows.trans ?_).trans (.advance _ _ _)
      split
      · exact .refl _
      · exact (Knowledge.Learns.keep _ _ _).toGrows
    · -- The link may have come to hold what it was given, and other links hold what they did.
      have hkept : noted.kept[other]? = some cell → site.known.kept[other]? = some cell :=
        fun h => hnotes.kept ▸ h
      change (if target.isSmall then noted else noted.keep _ target).kept[other]? = _ at hcell
      split at hcell
      · exact .inl (hkept hcell)
      · rw [Knowledge.kept_keep] at hcell
        split at hcell
        · cases hcell
          exact .inr (hdigest ▸ hgives)
        · exact .inl (hkept hcell)

/--
A soft link: its target may be visited if the link led there at the start, and the walk may fail if
it leads nowhere.
-/
theorem guards_walkSoft (plan : Plan origin start goal) (hw : origin.Watches start goal)
    {label : Label} {digest : Digest} (hlink : .soft label digest ∈ held)
    (hvisit : ∀ target : Cell, start.Target (.soft label digest) target → target.digest = digest →
      target.encode ∈ start.stops → target.encode ∈ origin.encodings →
      plan.Ready hops target ∧ target.encode ∈ plan.written)
    (hmissing : ∀ site, plan.Traced site → site.known.resident (.soft label digest) = none →
      site.store.find? digest = none → plan.fails (.cell (.missingData digest)) site)
    {top : Bool} {follow : Cell → StoreAction Unit} (hwalks : origin.Walks goal held follow)
    (hfollow : plan.Follows hops held follow) :
    origin.law.Guards held plan.Traced ((Link.soft label digest).walkSoft goal top follow)
      (fun _ site => plan.Traced site) plan.fails := by
  have htarget : ∀ held', held ⊆ held' → ∀ target : Cell, target.Within origin.Covers held' →
      start.Target (.soft label digest) target → target.digest = digest →
      target.encode ∈ start.stops → target.encode ∈ origin.encodings →
      origin.law.Guards held' plan.Traced
        ((Link.soft label digest).walkTarget goal top target target.encode (follow target))
        (fun _ site => plan.Traced site) plan.fails := by
    intro held' hsub target hwithin hstart hdigest hstop hencoding
    obtain ⟨hready, hwritten⟩ := hvisit target hstart hdigest hstop hencoding
    exact (guards_walkTarget
      (fun held'' hsub' => hwalks held'' target (hsub.trans hsub') (hwithin.mono hsub'))
      (fun held'' hsub' => hfollow held'' target (hsub.trans hsub') (hwithin.mono hsub') hready)
      hw hwithin subset_rfl fun _ => ⟨hencoding, hwritten⟩).mono (fun _ _ h => h) fun _ _ h => h.1
  refine guards_unlessReached (fun _ htrace _ => htrace) (.get_bind fun site hinv htrace => ?_)
  cases hresident : site.known.resident (.soft label digest) with
  | some target =>
    have hwithin := hinv.coherent.resident hlink hresident
    have hdigest := hinv.coherent.digest _ hlink target hresident
    have hlarge := (hinv.coherent.kept label target hresident).2.1
    exact (htarget held subset_rfl target hwithin (htrace.of_resident hresident hdigest) hdigest
      (htrace.mem_stops hw.sound hresident) (hwithin.good.large hlarge)).at_state htrace
  | none =>
    refine guards_adopt (fun site' _ _ _ hsite _ _ => ?_) ?_
    · obtain rfl : site' = site := hsite
      exact htrace.note (.advance _ _ _) rfl
    refine .bind (Origin.keeps_resolve hlink).of_always
      ((guards_resolve hw.sound hmissing).mono (fun site' _ h => ?_) fun _ _ h => h)
      fun target held' hsub => .from_state fun site' _ hpost => ?_
    · obtain ⟨hsite, hlow⟩ := h
      obtain rfl : site' = site := hsite
      exact ⟨⟨htrace, hresident⟩, htrace.not_novel_of_lt hlow⟩
    obtain ⟨⟨⟨hwithin, hleads⟩, hencoding⟩, htrace', hstart, hstop⟩ := hpost
    exact (htarget held' hsub target hwithin hstart hleads.digest hstop
      (hencoding rfl)).at_state htrace'

/-- A direct link. If it does not have the status yet, its target, at the top, gets its entry. -/
theorem guards_walkDirect (hw : origin.Watches start goal) {label : Label}
    (htarget : target.Within origin.Covers held) (hsub : plan.written ⊆ written')
    {top : Bool} (halone : (top || decide (maxEmbedded < target.encode.length)) = true →
      target.encode ∈ origin.encodings ∧ target.encode ∈ written')
    {children : StoreAction Unit}
    (hkeeps : ∀ held', held ⊆ held' → origin.law.Keeps held' (fun _ => True) children
      fun _ _ site => site.Reached goal target.links)
    (hchildren : ∀ held', held ⊆ held' → origin.law.Guards held' plan.Traced children
      (fun _ site => plan.Traced site) plan.fails)
    {fresh : Prop} (hfresh : fresh → top = true) :
    origin.law.Guards held
      (fun site => plan.Traced site ∧ (fresh → ¬goal ≤ site.known.statusAt label))
      ((Link.direct label target).walkDirect goal top target target.encode children)
      (fun _ site => Site.Trace origin.encodings start goal written' site ∧
        (fresh → site.store.Has target goal)) plan.fails := by
  refine guards_unlessReached
    (fun site h hle => ⟨h.1.mono hsub, fun hfresh => absurd hle (h.2 hfresh)⟩) ?_
  refine .bind (Origin.keeps_ofCalc target.onlyNotes_noteDigest).of_always
    ((guards_ofCalc target.onlyNotes_noteDigest).mono (fun _ _ h => h.1) fun _ _ h => h)
    fun _ held' hsub' => ?_
  exact (guards_walkTarget (fun held'' hsub'' => hkeeps held'' (hsub'.trans hsub''))
    (fun held'' hsub'' => hchildren held'' (hsub'.trans hsub'')) hw (htarget.mono hsub') hsub
    halone).mono (fun _ _ h => h.2) fun _ _ h => ⟨h.1, fun hfresh' => h.2 (hfresh hfresh')⟩

/-! ### One link of a cell -/

/-- The walk of a link of a cell keeps the law, and gives the link the status. -/
theorem keeps_walkBelow (hstored : .stored ≤ goal) (hlink : link ∈ held)
    {follow : Cell → StoreAction Unit} (hwalks : origin.Walks goal held follow) :
    origin.law.Keeps held (fun _ => True) (link.walkBelow goal follow)
      fun _ _ site => goal ≤ site.known.statusAt link.label := by
  cases link with
  | soft label digest => exact Origin.keeps_walkSoft hstored hlink hwalks
  | direct label target =>
    refine .from_state fun site hinv _ => ?_
    have htarget := hinv.coherent.target _ hlink target rfl
    have hchildren := fun held' (hsub : held ⊆ held') =>
      Origin.walks_encodeWalking hstored hwalks held' target hsub (htarget.mono hsub)
    have htop : false = true → target.encode ∈ origin.encodings := nofun
    exact (Origin.keeps_walkDirect hstored hlink htarget htop hchildren).of_always

section

variable (hw : origin.Watches start goal) (hcell : cell.Within origin.Covers held)

include hw hcell

/-- A soft link of a cell. -/
theorem guards_softBelow (hroom : Trail.Room origin.encodings start.stops (hops + 1) cell)
    {label : Label} {digest : Digest} (hlink : .soft label digest ∈ cell.links)
    (hopens : plan.Opens cell (.soft label digest)) {follow : Cell → StoreAction Unit}
    (hwalks : origin.Walks goal held follow) (hfollow : plan.Follows hops held follow) :
    origin.law.Guards held plan.Traced ((Link.soft label digest).walkSoft goal false follow)
      (fun _ site => plan.Traced site) plan.fails := by
  refine .from_state fun site hinv htrace => ?_
  have hsound := Origin.sound_of_within hinv.coherent hcell
  refine (guards_walkSoft plan hw (hcell.links _ (Cell.mem_everyLink_of_mem hlink))
    (fun target hstart hdigest hstop hencoding => ?_) (fun site => hopens.missing rfl)
    hwalks hfollow).at_state htrace
  have hrefers := Cell.refers_of_not_inline hsound hlink rfl hdigest hencoding
  exact ⟨hopens.ready_follow hroom hstart hrefers hstop, hopens.writes hrefers⟩

/-- A direct link of a cell; its target is visited with as many hops left. -/
theorem guards_directBelow (hroom : Trail.Room origin.encodings start.stops hops cell)
    {label : Label} (hlink : .direct label target ∈ cell.links)
    (hopens : plan.Opens cell (.direct label target)) (htarget : target.Within origin.Covers held)
    {children : StoreAction Unit}
    (hkeeps : ∀ held', held ⊆ held' → origin.law.Keeps held' (fun _ => True) children
      fun _ _ site => site.Reached goal target.links)
    (hchildren : plan.Ready hops target → ∀ held', held ⊆ held' →
      origin.law.Guards held' plan.Traced children (fun _ site => plan.Traced site) plan.fails) :
    origin.law.Guards held plan.Traced
      ((Link.direct label target).walkDirect goal false target target.encode children)
      (fun _ site => plan.Traced site) plan.fails := by
  refine .from_state fun site hinv htrace => ?_
  have hsound := Origin.sound_of_within hinv.coherent hcell
  have hrefers : target.isSmall = false →
      Refers origin.encodings cell.encode target.encode := fun hlarge =>
    Cell.refers_of_not_inline hsound hlink (if_neg (Bool.eq_false_iff.1 hlarge)) rfl
      (htarget.good.large hlarge)
  have hencloses : Encloses origin.encodings cell.encode target.encode := by
    cases hsmall : target.isSmall with
    | true =>
      exact Cell.encloses_of_inline hsound (Origin.sound_of_within hinv.coherent htarget) hlink
        (if_pos hsmall)
    | false => exact .inr (hrefers hsmall)
  have halone : (false || decide (maxEmbedded < target.encode.length)) = true →
      target.encode ∈ origin.encodings ∧ target.encode ∈ plan.written := by
    intro halone
    have hlarge : target.isSmall = false := Bool.eq_false_iff.2 fun hsmall =>
      absurd ((Cell.isSmall_iff target).1 hsmall)
        (Nat.not_le.2 (of_decide_eq_true ((Bool.false_or _).symm.trans halone)))
    exact ⟨htarget.good.large hlarge, hopens.writes (hrefers hlarge)⟩
  exact ((guards_walkDirect hw htarget subset_rfl halone hkeeps
    (hchildren (hopens.ready_child hroom (.inl rfl) hencloses)) False.elim).mono
      (fun _ _ h => ⟨h, False.elim⟩) fun _ _ h => h.1).at_state htrace

/-- A link of a cell, given how the links of a cell that it holds are walked. -/
theorem guards_walkBelow (hroom : Trail.Room origin.encodings start.stops (hops + 1) cell)
    (hlink : link ∈ cell.links) (hopens : plan.Opens cell link)
    {follow : Cell → StoreAction Unit} (hwalks : origin.Walks goal held follow)
    (hfollow : plan.Follows hops held follow)
    (hdirect : ∀ target, link.target? = some target → ∀ held', held ⊆ held' →
      target.Within origin.Covers held' → plan.Ready (hops + 1) target →
      origin.law.Guards held' plan.Traced (target.encodeWalking goal follow).2
        (fun _ site => plan.Traced site) plan.fails) :
    origin.law.Guards held plan.Traced (link.walkBelow goal follow)
      (fun _ site => plan.Traced site) plan.fails := by
  cases link with
  | soft label digest => exact guards_softBelow hw hcell hroom hlink hopens hwalks hfollow
  | direct label target =>
    refine .from_state fun site hinv htrace => ?_
    have htarget := hinv.coherent.target _
      (hcell.links _ (Cell.mem_everyLink_of_mem hlink)) target rfl
    refine (guards_directBelow hw hcell hroom hlink hopens htarget (fun held' hsub => ?_)
      fun hready held' hsub => ?_).at_state htrace
    · exact Origin.walks_encodeWalking hw.stored hwalks held' target hsub (htarget.mono hsub)
    · exact hdirect target rfl held' hsub (htarget.mono hsub) hready

end

/-! ### Walks from a cell -/

section

variable (plan) (hw : origin.Watches start goal)
  (hfollows : ∀ hops, plan.Follows hops held (Cell.walkChildren goal hops))
  (hcell : cell.Within origin.Covers held) (hencoding : cell.encode ∈ origin.encodings)
  (hvisits : plan.visits cell) (hsub : plan.written ⊆ written') (hwritten : cell.encode ∈ written')

include hw hfollows hcell hencoding hvisits hsub hwritten

/--
A walk from a direct link. If the link does not have the status yet, its target gets its entry.
-/
theorem guards_walkFrom (label : Label) (fresh : Prop) :
    origin.law.Guards held
      (fun site => (plan.Traced site ∧ (fresh → ¬goal ≤ site.known.statusAt label)) ∧
        start.stops.length < hopLimit site)
      (walk goal (.direct label cell))
      (fun _ site => Site.Trace origin.encodings start goal written' site ∧
        (fresh → site.store.Has cell goal)) plan.fails := by
  refine .get_bind fun site _ hpre => ?_
  obtain ⟨htrace, hhops⟩ := hpre
  exact (guards_walkDirect hw hcell hsub (fun _ => ⟨hencoding, hwritten⟩)
    (fun held' hsub' => Origin.walks_walkChildren hw.stored _ held' cell hsub' (hcell.mono hsub'))
    (fun held' hsub' => hfollows _ held' cell hsub' (hcell.mono hsub')
      (ready_of_visits plan hvisits hhops)) fun _ => rfl).at_state htrace

/-- A walk from a cell, which gets its entry at the end. -/
theorem guards_make :
    origin.law.Guards held (fun site => site = start ∧ plan.Traced site) (make goal cell)
      (fun _ site => Site.Trace origin.encodings start goal written' site ∧
        site.store.Has cell goal) plan.fails := by
  -- The link that is made for the cell is new, so that the walk does not stop at its status.
  have hlink : origin.law.Guards held (fun site => site = start ∧ plan.Traced site)
      (ofCalc cell.link)
      (fun link site => link = .direct start.known.next cell ∧
        (plan.Traced site ∧ (True → ¬goal ≤ site.known.statusAt start.known.next)) ∧
        start.stops.length < hopLimit site) plan.fails := by
    rintro site hinv ⟨hsite, htrace⟩
    obtain rfl := hsite.symm
    have hrun : (ofCalc cell.link).run.run start = (.ok (.direct start.known.next cell),
        { start with known := { start.known with next := start.known.next + 1 } }) := rfl
    rw [hrun]
    refine ⟨rfl, ⟨htrace.note (Knowledge.Learns.of_next (Nat.le_succ _)).toGrows rfl, ?_⟩,
      start.stops_lt_hopLimit⟩
    show True → ¬goal ≤ start.known.statusAt start.known.next
    rw [hinv.coherent.status _ (Nat.le_refl _)]
    exact fun _ hle => absurd (hw.stored.trans hle) (by decide)
  refine .bind (Origin.extends_covers.keeps_ofCalc (Knowledge.keeps_link hcell)).of_always hlink
    fun link held' hsub' => .from_state fun site _ hpost => ?_
  obtain ⟨⟨hheld, -⟩, rfl, hpre⟩ := hpost
  have hkeeps := Origin.keeps_walk hw.stored hheld fun t ht => Option.some.inj ht ▸ hencoding
  have hguards := guards_walkFrom plan hw (fun hops => (hfollows hops).mono hsub')
    (hcell.mono hsub') hencoding hvisits hsub hwritten start.known.next True
  refine .bind hkeeps.of_always (hguards.at_state hpre) fun _ _ _ => .pure fun _ _ h => ?_
  exact ⟨h.2.1, h.2.2 trivial⟩

end

end Plan

namespace Course

variable {origin : Origin} {start : Site} {goal : Status} {held : Set Link}
  {course : Course origin start goal} {hops : Nat} {cell target : Cell} {link : Link}
  {written' : Set Bytes}

/-! ### All links below a cell -/

theorem follows_encodeWalking (hw : origin.Watches start goal) {follow : Cell → StoreAction Unit}
    (hwalks : origin.Walks goal held follow) (hfollow : course.Follows hops held follow) :
    course.Follows (hops + 1) held fun cell => (cell.encodeWalking goal follow).2 := by
  intro held' cell hsub hcell hready
  -- The induction is on the cell, as in the walk: the targets that it holds are below it.
  induction cell using Cell.induct generalizing held' with
  | step label value ih =>
    dsimp only
    rw [Cell.encodeWalking_snd]
    refine .forM (fun link hlink held₁ hsub₁ => ?_) fun link hlink held₁ hsub₁ => ?_
    · exact (Plan.keeps_walkBelow hw.stored
        (hsub₁ (hcell.links link (Cell.mem_everyLink_of_mem hlink)))
        fun held₂ target hsub₂ => hwalks held₂ target ((hsub.trans hsub₁).trans hsub₂)).mono_right
          fun _ _ _ _ => trivial
    · exact Plan.guards_walkBelow hw (hcell.mono hsub₁) hready.2 hlink
        (course.opens hready.1 hlink)
        (fun held₂ target hsub₂ => hwalks held₂ target ((hsub.trans hsub₁).trans hsub₂))
        (hfollow.mono (hsub.trans hsub₁))
        fun target ht held₂ hsub₂ => ih link hlink target ht held₂ ((hsub.trans hsub₁).trans hsub₂)

/-- The walk of a cell's children. It fails where soft links go on for too long. -/
theorem follows_walkChildren (hw : origin.Watches start goal) (hops : Nat) :
    course.Follows hops held (Cell.walkChildren goal hops) := by
  induction hops with
  | zero =>
    rintro held' cell - - ⟨-, hroom⟩
    obtain ⟨encoding, -, hdepends⟩ := hroom.exists_depends_self
    exact .throw fun site _ htrace => course.endless hdepends htrace
  | succ hops ih => exact follows_encodeWalking hw (Origin.walks_walkChildren hw.stored hops) ih

/-- A link that may be followed, though the walk need not go on to the other links of its cell. -/
theorem guards_link (hw : origin.Watches start goal) (hcell : cell.Within origin.Covers held)
    (hroom : Trail.Room origin.encodings start.stops (hops + 1) cell) (hlink : link ∈ cell.links)
    (hopens : course.Opens cell link) :
    origin.law.Guards held course.Traced (link.walkBelow goal (Cell.walkChildren goal hops))
      (fun _ site => course.Traced site) course.fails :=
  Plan.guards_walkBelow hw hcell hroom hlink hopens (Origin.walks_walkChildren hw.stored hops)
    (follows_walkChildren hw hops) fun target _ held' _ hwithin hready =>
      follows_walkChildren hw (hops + 1) held' target subset_rfl hwithin hready

/-! ### Whole walks -/

/-- A walk from any link. -/
theorem guards_walk (hw : origin.Watches start goal) (hlink : link ∈ held)
    (hencoding : ∀ t, link.target? = some t → t.encode ∈ origin.encodings) :
    origin.law.Guards held
      (fun site => (everything origin start goal).Traced site ∧
        start.stops.length < hopLimit site)
      (walk goal link) (fun _ site => (everything origin start goal).Traced site)
      (everything origin start goal).fails := by
  refine .from_state fun site hinv hpre => ?_
  have hready : ∀ target, (everything origin start goal).Ready (hopLimit site) target :=
    fun target => Plan.ready_of_visits _ trivial hpre.2
  cases link with
  | soft label digest =>
    refine .get_bind fun site' _ hsite => ?_
    obtain rfl : site' = site := hsite
    exact (Plan.guards_walkSoft (everything origin start goal).toPlan hw hlink
      (fun target _ _ _ _ => ⟨hready target, trivial⟩) (fun _ htrace _ _ => htrace)
      (Origin.walks_walkChildren hw.stored _) (follows_walkChildren hw _)).at_state hpre.1
  | direct label target =>
    have htarget := hinv.coherent.target _ hlink target rfl
    refine (Plan.guards_walkFrom (everything origin start goal).toPlan hw
      (follows_walkChildren hw) htarget (hencoding target rfl) trivial subset_rfl trivial label
      False).mono (fun site' _ h => ?_) fun _ _ h => h.1
    obtain rfl : site' = site := h
    exact ⟨⟨hpre.1, False.elim⟩, hpre.2⟩

/-- A walk from a cell, which gets its entry at the end. -/
theorem guards_make (course : Course origin start goal) (hw : origin.Watches start goal)
    (hcell : cell.Within origin.Covers held) (hencoding : cell.encode ∈ origin.encodings)
    (hvisits : course.visits cell) (hsub : course.written ⊆ written')
    (hwritten : cell.encode ∈ written') :
    origin.law.Guards held (fun site => site = start ∧ course.Traced site) (make goal cell)
      (fun _ site => Site.Trace origin.encodings start goal written' site ∧
        site.store.Has cell goal) course.fails :=
  Plan.guards_make course.toPlan hw (follows_walkChildren hw) hcell hencoding hvisits hsub hwritten

end Course

end CellGraph
