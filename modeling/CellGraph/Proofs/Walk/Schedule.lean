import CellGraph.Proofs.Cell.Parallel
import CellGraph.Proofs.Store.Orderly

/-!
# Walks go by their agenda

A walk on a store that is tended does what the agenda for a plan of its cell says, whatever else is
known. Where it passes over a link because of the link's status, there was nothing to be done; and it
fails only where the agenda goes no further.

* `Schedule`, `Schedule.Meets`: the agenda that a walk starts with, and those that it comes to;
* `Agenda.Visits`: how something on an agenda makes way for a visit to a cell;
* `Schedule.Deals`: computations that deal with the links of a cell, by any plan of it;
* `Schedule.carries_walkTarget`, `Schedule.carries_walkDirect`, `Schedule.carries_walkSoft`: one
  link;
* `Schedule.follows_walkChildren`: all links below a cell;
* `Origin.Orderly.make`: walks from a cell.
-/

namespace CellGraph

open StoreAction

/-- There is an entry. -/
abbrev View.Has (view : View) (digest : Digest) : Prop := (view digest).isSome

theorem Site.Moves.has {site site' : Site} (h : site.Moves site') (digest : Digest)
    (hhas : View.Has site.store.find? digest) : View.Has site'.store.find? digest :=
  h.store.isSome hhas

/-- What a site has and what has been reported there, with what is to be done. -/
abbrev Site.agenda (site : Site) (tasks : List Task) : Agenda :=
  ⟨site.store.find?, site.novel, tasks⟩

/-- Nothing on an agenda has changed where cells have only been asked for. -/
theorem Site.Asked.agenda_eq {site site' : Site} (h : site.Asked site') (tasks : List Task) :
    site'.agenda tasks = site.agenda tasks := by
  rw [Site.agenda, h.store, h.novel]

/--
The agenda that a walk to a status starts with. Digests tell encodings apart, and those at which the
walk may arrive by soft links do not depend on themselves.
-/
structure Schedule (origin : Origin) where
  goal : Status
  start : Agenda
  stops : List Bytes
  inj : Set.InjOn Digest.of origin.encodings
  stored : .stored ≤ goal
  ends : ∀ encoding ∈ stops, ¬Depends origin.encodings encoding encoding

namespace Schedule

variable {origin : Origin} (schedule : Schedule origin)

/-- The agenda has been come to, and whatever has an entry without the status is a stop. -/
structure Meets (agenda : Agenda) : Prop where
  reaches : Agenda.Reaches schedule.goal schedule.start agenda
  low : ∀ key encoding status, agenda.view key = some (encoding, status) →
    status < schedule.goal → encoding ∈ schedule.stops

/-- An agenda that has been come to goes no further, since a soft link has no entry. -/
def Fails (fault : StoreFault) (site : Site) : Prop :=
  ∃ digest tasks, fault = .cell (.missingData digest) ∧ schedule.Meets (site.agenda tasks) ∧
    (site.agenda tasks).Lacks digest

namespace Meets

variable {schedule} {view : View} {novel : List Digest} {task : Task} {tasks rest : List Task}

theorem opening (h : schedule.Meets ⟨view, novel, task :: rest⟩)
    (hopening : Agenda.opening schedule.goal view task = some tasks) :
    schedule.Meets ⟨view, novel, tasks ++ rest⟩ :=
  ⟨h.reaches.trans (.opening hopening), h.low⟩

theorem idle (h : schedule.Meets ⟨view, novel, task :: rest⟩)
    (hidle : Agenda.Idle schedule.goal view task) : schedule.Meets ⟨view, novel, rest⟩ :=
  ⟨h.reaches.trans (hidle novel rest), h.low⟩

/-- What has been written has the status. -/
theorem write {key : Digest} {encoding : Bytes}
    (h : schedule.Meets ⟨view, novel, .write key encoding :: rest⟩) :
    schedule.Meets ⟨Agenda.raise schedule.goal view key encoding,
      Agenda.report schedule.goal view novel key, rest⟩ := by
  refine ⟨h.reaches.trans (.write key encoding), fun other found status hentry hlow => ?_⟩
  by_cases heq : other = key
  · subst heq
    dsimp only [Agenda.raise] at hentry
    rw [Function.update_self] at hentry
    exfalso
    cases hview : view other with
    | none =>
      rw [hview] at hentry
      cases hentry
      exact lt_irrefl _ hlow
    | some entry =>
      rw [hview] at hentry
      cases hentry
      rw [Status.max_eq] at hlow
      exact lt_irrefl _ ((le_max_right _ _).trans_lt hlow)
  · dsimp only [Agenda.raise] at hentry
    rw [Function.update_of_ne heq] at hentry
    exact h.low other found status hentry hlow

end Meets

end Schedule

/-- Writing a cell under its digest, as it can be told from outside. -/
theorem Store.Sound.find?_insert_eq_raise {store : Store} (h : store.Sound) (cell : Cell)
    (key : Digest) (goal : Status) :
    (store.insert cell cell.encode key goal).2.find? =
      Agenda.raise goal store.find? key cell.encode := by
  funext other
  rw [h.legible.find?_insert, Agenda.raise]
  by_cases heq : key = other
  · subst heq
    refine (if_pos rfl).trans (Eq.trans ?_ (Function.update_self key _ store.find?).symm)
    cases store.find? key <;> rfl
  · rw [if_neg heq, Function.update_of_ne (Ne.symm heq)]

/--
A task makes way for a visit to a cell: its entry has the status, or the task opens into the links
of a plan for the cell, and the writing of the cell if it is to stand alone.
-/
inductive Agenda.Visits (goal : Status) (view : View) (target : Cell) (alone : Bool)
    (task : Task) : Prop
  | skip {encoding : Bytes} {status : Status} (alone : alone = true)
    (find : view target.digest = some (encoding, status)) (le : goal ≤ status)
    (opening : Agenda.opening goal view task = some [])
  | enter {plan : Cell}
    (low : alone = true → ∀ encoding status, view target.digest = some (encoding, status) →
      status < goal)
    (parallel : target.Parallel (View.Has view) plan)
    (opening : Agenda.opening goal view task =
      some (Agenda.visit plan target.digest target.encode alone))

namespace Origin.Orderly

variable {origin : Origin} {held : Set Link} {site : Site} {target : Cell} {goal : Status}

/-- What an entry was made from has a plan in the encoding. -/
theorem parallel_encode (h : origin.Orderly held site) (htarget : target.Within origin.Covers held)
    {status : Status} (hentry : site.store.find? target.digest = some (target.encode, status)) :
    target.Parallel (View.Has site.store.find?) target.encode.cell := by
  have hsound := sound_of_within h.coherent htarget
  refine .of_encoding hsound fun digest hdigest => ?_
  rw [← Cell.named_encode hsound] at hdigest
  exact (h.entries _ _ _ hentry digest hdigest).isSome

/-- A cell is visited if its entry is consulted, and without an entry a plan for it is held. -/
theorem visits_of_consult (h : origin.Orderly held site)
    (hinj : Set.InjOn Digest.of origin.encodings) (htarget : target.Within origin.Covers held)
    (hencoding : target.encode ∈ origin.encodings) {top : Bool} {task : Task} {plan? : Option Cell}
    (hopening : Agenda.opening goal site.store.find? task =
      Agenda.consult goal site.store.find? top target.digest plan?)
    (hplan : site.store.find? target.digest = none →
      ∃ plan, plan? = some plan ∧ target.Parallel (View.Has site.store.find?) plan)
    (hlow : (top || decide (maxEmbedded < target.encode.length)) = false →
      ∀ encoding status, site.store.find? target.digest = some (encoding, status) →
        status < goal) :
    Agenda.Visits goal site.store.find? target
      (top || decide (maxEmbedded < target.encode.length)) task := by
  cases hentry : site.store.find? target.digest with
  | none =>
    obtain ⟨plan, rfl, hparallel⟩ := hplan hentry
    refine .enter (fun _ _ _ hfound => ?_) hparallel ?_
    · rw [hentry] at hfound
      cases hfound
    · rw [hopening, Agenda.consult, hentry, hparallel.encode_eq]
      rfl
  | some entry =>
    obtain ⟨encoding, status⟩ := entry
    obtain rfl : encoding = target.encode :=
      hinj (h.encodings _ _ _ hentry) hencoding (h.store.key _ _ _ hentry).symm
    rw [Agenda.consult, hentry] at hopening
    dsimp only at hopening
    by_cases hle : goal ≤ status
    · rw [if_pos hle] at hopening
      refine .skip ?_ hentry hle hopening
      by_contra halone
      exact absurd (hlow (Bool.eq_false_iff.2 halone) _ _ hentry) (not_lt.2 hle)
    · rw [if_neg hle] at hopening
      refine .enter (fun _ _ _ hfound => ?_) (h.parallel_encode htarget hentry) hopening
      rw [hentry] at hfound
      cases hfound
      exact not_le.1 hle

end Origin.Orderly

namespace Schedule

variable {origin : Origin} {schedule : Schedule origin} {held : Set Link} {link : Link}
  {target : Cell} {α : Type}

/-! ### Steps of a walk -/

/-- Only digests and encodings are noted. -/
theorem carries_ofCalc {step : Calc α} (h : Calc.OnlyNotes step) {pre : Site → Prop}
    (hpre : ∀ site known, site.known.Grows known → pre site → pre { site with known })
    {fails : StoreFault → Site → Prop} :
    origin.tending.Carries held pre (ofCalc step) (fun _ _ site => pre site) fails := by
  intro site (hinv : origin.Orderly held site) hsite
  have hnotes := h site.known
  exact ⟨held, subset_rfl, hinv.note hnotes, ⟨hnotes.learns.toGrows, .refl _⟩,
    hpre site _ hnotes.learns.toGrows hsite⟩

/-- The status of an entry is taken over, or else the link is visited. -/
theorem carries_adopt (hlink : link ∈ held) {key : Digest} {visit : StoreAction Unit}
    {pre post : Site → Prop} {goal : Status} {fails : StoreFault → Site → Prop}
    (hadopted : ∀ site, origin.Orderly held site → pre site → ∀ encoding status,
      site.store.find? key = some (encoding, status) → goal ≤ status →
      (∀ digest ∈ link.named, View.Brought site.store.find? status digest) ∧
        post { site with known := site.known.advance link status })
    (hvisit : origin.tending.Carries held (fun site => pre site ∧
        ∀ encoding status, site.store.find? key = some (encoding, status) → status < goal)
      visit (fun _ _ => post) fails) :
    origin.tending.Carries held pre (do unless ← adopt link key goal do visit) (fun _ _ => post)
      fails := by
  intro site (hinv : origin.Orderly held site) hpre
  rcases run_unlessAdopted hinv.store.legible link key goal visit with
    ⟨encoding, status, hentry, hle, hrun⟩ | ⟨hlow, hrun⟩ <;> rw [hrun]
  · obtain ⟨hbrought, hpost⟩ := hadopted site hinv hpre encoding status hentry hle
    exact ⟨held, subset_rfl, hinv.advance hlink hbrought, ⟨.advance _ _ _, .refl _⟩, hpost⟩
  · exact hvisit site hinv ⟨hpre, hlow⟩

/-- A visit is made only to a link that does not have the status already. -/
theorem carries_unlessReached {visit : StoreAction Unit} {pre post : Site → Prop} {goal : Status}
    {fails : StoreFault → Site → Prop}
    (hreached : ∀ site, origin.Orderly held site → pre site →
      goal ≤ site.known.statusAt link.label → post site)
    (hvisit : origin.tending.Carries held pre visit (fun _ _ => post) fails) :
    origin.tending.Carries held pre (do unless goal ≤ (← linkStatus link) do visit)
      (fun _ _ => post) fails := by
  refine .get_bind fun site hinv hpre => ?_
  split
  · next hle => exact .pure fun site' _ heq => heq ▸ hreached site hinv hpre hle
  · exact hvisit.at_state hpre

/-- The link has the status, and this is left to be done. -/
abbrev Done (schedule : Schedule origin) (link : Link) (rest : List Task) (site : Site) : Prop :=
  schedule.Meets (site.agenda rest) ∧ schedule.goal ≤ site.known.statusAt link.label

/-- A link is raised to a status that is high enough. -/
theorem done_advance {site : Site} {rest : List Task} (h : schedule.Meets (site.agenda rest))
    {status : Status} (hle : schedule.goal ≤ status) :
    schedule.Done link rest { site with known := site.known.advance link status } := by
  refine ⟨h, ?_⟩
  dsimp only
  rw [Knowledge.statusAt_advance, if_pos rfl, Status.max_eq]
  exact hle.trans (le_max_right _ _)

/-- The end of a visit: the target is written, if it is to stand alone. -/
theorem carries_finish (hlink : link ∈ held) (htarget : target.Within origin.Covers held)
    {alone : Bool} (halone : alone = true → target.encode ∈ origin.encodings)
    (hsmall : alone = false → target.isSmall = true) (rest : List Task) :
    origin.tending.Carries held
      (fun site => (schedule.Meets (site.agenda
          ((if alone then [.write target.digest target.encode] else []) ++ rest)) ∧
        site.Reached schedule.goal target.links) ∧ site.Leads link target)
      (link.finish schedule.goal target target.encode target.digest alone)
      (fun _ _ => schedule.Done link rest) schedule.Fails := by
  rintro site (hinv : origin.Orderly held site) ⟨⟨hmeets, hreached⟩, hleads⟩
  have hnamed := hinv.brought_of_reached htarget schedule.stored hreached
  cases alone with
  | false =>
    have hbrought := hinv.brought htarget hleads hnamed fun hlarge => by
      rw [hsmall rfl] at hlarge
      cases hlarge
    exact ⟨held, subset_rfl, hinv.advance hlink hbrought, ⟨.advance _ _ _, .refl _⟩,
      done_advance hmeets le_rfl⟩
  | true =>
    have hnotes := target.onlyNotes_noteDigest site.known
    have hgrows := hinv.store.legible.grows_insert target target.digest schedule.goal
    have hmoves : site.Moves { site with
        known := (target.noteDigest.run site.known).2
        store := (site.store.insert target target.encode target.digest schedule.goal).2 } :=
      ⟨hnotes.learns.toGrows, hgrows⟩
    -- Writing keeps the order, and so does raising the link after that.
    have hwritten := (hinv.note hnotes).insert schedule.inj htarget (halone rfl) schedule.stored
      hnamed (Agenda.report schedule.goal site.store.find? site.novel target.digest)
      ((site.store.insert target target.encode target.digest schedule.goal).2 :: site.journal)
    have hself := hinv.store.legible.find?_insert_self target target.digest schedule.goal
    have hraised := hwritten.advance hlink (hwritten.brought htarget
      (hleads.mono ⟨hmoves.known, hmoves.store⟩)
      (fun digest hdigest => (hnamed digest hdigest).grows hgrows le_rfl)
      fun _ => hself.imp fun _ => .imp fun _ => And.symm)
    have hmeets' : schedule.Meets ⟨_, _, rest⟩ := hmeets.write
    rw [← hinv.store.find?_insert_eq_raise target target.digest] at hmeets'
    have hknown := hmoves.known.trans (.advance _ link schedule.goal)
    rw [Link.finish, if_pos rfl, run_run_bind, run_write hinv.store.legible]
    dsimp only
    rw [Agenda.report] at hraised hmeets'
    by_cases h : ((site.store.find? target.digest).map Prod.snd).all (· < schedule.goal) = true
    · rw [if_pos h] at hraised hmeets' ⊢
      exact ⟨held, subset_rfl, hraised, ⟨hknown, hgrows⟩, done_advance hmeets' le_rfl⟩
    · rw [if_neg h] at hraised hmeets' ⊢
      exact ⟨held, subset_rfl, hraised, ⟨hknown, hgrows⟩, done_advance hmeets' le_rfl⟩

/-! ### One link -/

variable (schedule) in
/-- A computation deals with the links of a cell as any plan of the cell says. -/
def Deals (held : Set Link) (cell : Cell) (children : StoreAction Unit) : Prop :=
  ∀ held' (plan : Cell) rest, held ⊆ held' → origin.tending.Carries held'
    (fun site => schedule.Meets (site.agenda (plan.links.map .link ++ rest)) ∧
      cell.Parallel (View.Has site.store.find?) plan)
    children
    (fun _ _ site => schedule.Meets (site.agenda rest) ∧ site.Reached schedule.goal cell.links)
    schedule.Fails

theorem Deals.mono {held' : Set Link} {cell : Cell} {children : StoreAction Unit}
    (h : schedule.Deals held cell children) (hsub : held ⊆ held') :
    schedule.Deals held' cell children :=
  fun held'' plan rest hsub' => h held'' plan rest (hsub.trans hsub')

section

variable {top : Bool} {children : StoreAction Unit}
  (hlink : link ∈ held) (htarget : target.Within origin.Covers held)
  (halone : (top || decide (maxEmbedded < target.encode.length)) = true →
    target.encode ∈ origin.encodings)
  {view : View} {task : Task}
  (hvisits : Agenda.Visits schedule.goal view target
    (top || decide (maxEmbedded < target.encode.length)) task)
  (hchildren : ((top || decide (maxEmbedded < target.encode.length)) = true →
      ∀ encoding status, view target.digest = some (encoding, status) → status < schedule.goal) →
    schedule.Deals held target children)

include hlink htarget halone hvisits hchildren

/-- A visit to a cell whose entry does not have the status. -/
theorem carries_visit (rest : List Task) :
    origin.tending.Carries held
      (fun site => ((site.store.find? = view ∧ schedule.Meets (site.agenda (task :: rest))) ∧
          site.Leads link target) ∧
        ((top || decide (maxEmbedded < target.encode.length)) = true → ∀ encoding status,
          site.store.find? target.digest = some (encoding, status) → status < schedule.goal))
      (do
        children
        link.finish schedule.goal target target.encode target.digest
          (top || decide (maxEmbedded < target.encode.length)))
      (fun _ _ => schedule.Done link rest) schedule.Fails := by
  cases hvisits with
  | skip halone' hfind hle =>
    rintro site - ⟨⟨⟨rfl, -⟩, -⟩, hlow⟩
    exact absurd (hlow halone' _ _ hfind) (not_lt.2 hle)
  | @enter plan hlow hparallel hopening =>
    have hdeals := hchildren hlow held plan
      ((if (top || decide (maxEmbedded < target.encode.length)) then
        [.write target.digest target.encode] else []) ++ rest) subset_rfl
    refine ((hdeals.carry (·.Leads link target) fun _ _ _ _ hmoves h => h.mono hmoves).mono
      (fun site _ h => ?_) fun _ _ _ _ _ h => h).bind fun _ held₁ hsub₁ => ?_
    · obtain ⟨⟨⟨rfl, hmeets⟩, hleads⟩, -⟩ := h
      have hopened := hmeets.opening hopening
      rw [Agenda.visit, List.append_assoc] at hopened
      exact ⟨⟨hopened, hparallel⟩, hleads⟩
    · exact carries_finish (hsub₁ hlink) (htarget.mono hsub₁) halone
        Origin.isSmall_of_not_alone rest

end

/-- A visit to a link whose target is at hand; `children` deals with the links of the target. -/
theorem carries_walkTarget (hlink : link ∈ held) (htarget : target.Within origin.Covers held)
    {top : Bool} (halone : (top || decide (maxEmbedded < target.encode.length)) = true →
      target.encode ∈ origin.encodings)
    {view : View} {task : Task}
    (hvisits : Agenda.Visits schedule.goal view target
      (top || decide (maxEmbedded < target.encode.length)) task)
    {children : StoreAction Unit}
    (hchildren : ((top || decide (maxEmbedded < target.encode.length)) = true →
        ∀ encoding status, view target.digest = some (encoding, status) →
          status < schedule.goal) → schedule.Deals held target children)
    (rest : List Task) :
    origin.tending.Carries held
      (fun site => (site.store.find? = view ∧ schedule.Meets (site.agenda (task :: rest))) ∧
        site.Leads link target)
      (link.walkTarget schedule.goal top target target.encode children)
      (fun _ _ => schedule.Done link rest) schedule.Fails := by
  refine (carries_ofCalc target.onlyNotes_noteWritten fun _ _ hgrows h =>
    ⟨h.1, h.2.mono ⟨hgrows, .refl _⟩⟩).bind fun _ held₁ hsub₁ => ?_
  have hvisit := carries_visit (hsub₁ hlink) (htarget.mono hsub₁) halone hvisits
    (fun hlow => (hchildren hlow).mono hsub₁) rest
  dsimp only
  split
  · next htrue =>
    refine carries_adopt (hsub₁ hlink) (fun site hinv hpre encoding status hentry hle => ?_)
      (hvisit.mono (fun _ _ h => ⟨h.1, fun _ => h.2⟩) fun _ _ _ _ _ h => h)
    obtain ⟨⟨rfl, hmeets⟩, hleads⟩ := hpre
    refine ⟨hinv.brought_of_entry schedule.inj (htarget.mono hsub₁) (halone htrue) hleads hentry,
      done_advance ?_ hle⟩
    cases hvisits with
    | skip _ _ _ hopening => exact hmeets.opening hopening
    | enter hlow => exact absurd (hlow htrue _ _ hentry) (not_lt.2 hle)
  · next hfalse =>
    exact hvisit.mono (fun _ _ h => ⟨h, fun htrue => absurd htrue hfalse⟩) fun _ _ _ _ _ h => h

/-- A direct link. Nothing is to be done if it has the status. -/
theorem carries_walkDirect {label : Label} (hlink : .direct label target ∈ held)
    (htarget : target.Within origin.Covers held) {top : Bool}
    (halone : (top || decide (maxEmbedded < target.encode.length)) = true →
      target.encode ∈ origin.encodings)
    {view : View} {task : Task}
    (hvisits : Agenda.Visits schedule.goal view target
      (top || decide (maxEmbedded < target.encode.length)) task)
    {children : StoreAction Unit} (hchildren : schedule.Deals held target children)
    (rest : List Task) :
    origin.tending.Carries held
      (fun site => (site.store.find? = view ∧ schedule.Meets (site.agenda (task :: rest))) ∧
        (schedule.goal ≤ site.known.statusAt label → Agenda.Idle schedule.goal view task))
      ((Link.direct label target).walkDirect schedule.goal top target target.encode children)
      (fun _ _ => schedule.Done (.direct label target) rest) schedule.Fails := by
  refine carries_unlessReached (fun site _ h hle => ?_) ?_
  · obtain ⟨⟨rfl, hmeets⟩, hidle⟩ := h
    exact ⟨hmeets.idle (hidle hle), hle⟩
  refine .bind (.mono (carries_ofCalc target.onlyNotes_noteDigest fun _ _ _ h => h)
    (fun _ _ h => h.1) fun _ _ _ _ _ h => h) fun _ held₁ hsub₁ => ?_
  exact (carries_walkTarget (hsub₁ hlink) (htarget.mono hsub₁) halone hvisits
    (fun _ => hchildren.mono hsub₁) rest).mono (fun site _ h => ⟨h, .direct site label target⟩)
      fun _ _ _ _ _ h => h

/-- There is nothing to do about a link with the status. -/
theorem idle_of_reached {site : Site} (h : origin.Orderly held site) (hlink : link ∈ held)
    {plan : Link}
    (hparallel : link.Parallel (View.Has site.store.find?)
      (Cell.Parallel (View.Has site.store.find?)) plan)
    (hle : schedule.goal ≤ site.known.statusAt link.label) :
    Agenda.Idle schedule.goal site.store.find? (.link plan) := by
  refine Agenda.idle_link fun digest hdigest => ?_
  rw [← hparallel.named_eq] at hdigest
  exact (h.links link hlink (schedule.stored.trans hle) digest hdigest).grows (.refl _) hle

/-- The target of a soft link has an entry, or else the agenda goes no further. -/
theorem carries_resolve {site : Site} (h : origin.Orderly held site) {label : Label}
    {digest : Digest} (hlink : .soft label digest ∈ held) {plan : Link} {rest : List Task}
    (hmeets : schedule.Meets (site.agenda (.link plan :: rest)))
    (hparallel : (Link.soft label digest).Parallel (View.Has site.store.find?)
      (Cell.Parallel (View.Has site.store.find?)) plan) :
    origin.tending.Carries held (fun s => s = site) (resolve (.soft label digest))
      (fun target held' site' => (target.Within origin.Covers held' ∧
          site'.Leads (.soft label digest) target ∧ target.encode ∈ origin.encodings) ∧
        (∃ status, site.store.find? digest = some (target.encode, status)) ∧ site.Asked site')
      schedule.Fails := by
  intro s _ hsite
  obtain rfl : site = s := hsite.symm
  obtain ⟨held', hsub, horderly, hasked, hend⟩ := h.follow hlink
  refine ⟨held', hsub, horderly, hasked.moves, ?_⟩
  cases houtcome : ((resolve (.soft label digest)).run.run site).1 with
  | ok target =>
    rw [houtcome] at hend
    exact ⟨hend.1, hend.2, hasked⟩
  | error fault =>
    rw [houtcome] at hend
    obtain ⟨rfl, hentry⟩ := hend
    refine ⟨digest, .link plan :: rest, rfl, hasked.agenda_eq _ ▸ hmeets, ?_⟩
    cases hparallel with
    | entry _ _ hhas =>
      rw [View.Has, Link.digest, hentry] at hhas
      cases hhas
    | soft _ label' => exact ⟨label', rest, rfl, by rw [hasked.agenda_eq]; exact hentry⟩

/-- The entry of what a link leads to is consulted if the link is not inline. -/
theorem opening_of_parallel (goal : Status) {has : Digest → Prop} {view : View} {plan : Link}
    (hparallel : link.Parallel has (Cell.Parallel has) plan) (hinline : link.inline? = none)
    (hdigest : target.digest = link.digest) :
    Agenda.opening goal view (.link plan) =
      Agenda.consult goal view false target.digest plan.target? := by
  rw [Agenda.opening, hparallel.inline_eq_none_iff.1 hinline, hdigest, hparallel.digest_eq]

/-- All cells to which a soft link may lead can be dealt with. -/
def Leads (schedule : Schedule origin) (held : Set Link) (digest : Digest)
    (follow : Cell → StoreAction Unit) : Prop :=
  ∀ held' (target : Cell), held ⊆ held' → target.Within origin.Covers held' →
    target.digest = digest → target.encode ∈ origin.encodings →
    target.encode ∈ schedule.stops → schedule.Deals held' target (follow target)

section

variable {site : Site} (h : origin.Orderly held site) {label : Label} {digest : Digest}
  (hlink : .soft label digest ∈ held) {plan : Link} {rest : List Task}
  (hmeets : schedule.Meets (site.agenda (.link plan :: rest)))
  (hparallel : (Link.soft label digest).Parallel (View.Has site.store.find?)
    (Cell.Parallel (View.Has site.store.find?)) plan)
  {follow : Cell → StoreAction Unit} (hfollow : schedule.Leads held digest follow)

include h hlink hmeets hparallel hfollow

/-- A soft link that holds its target. The target has an entry, and the agenda goes by that. -/
theorem carries_softHeld (hresident : site.known.resident (.soft label digest) = some target) :
    origin.tending.Carries held (fun s => s = site)
      ((Link.soft label digest).walkTarget schedule.goal false target target.encode
        (follow target))
      (fun _ _ => schedule.Done (.soft label digest) rest) schedule.Fails := by
  have htarget := h.coherent.resident hlink hresident
  have hdigest := h.coherent.digest _ hlink target hresident
  have hlarge := (h.coherent.kept label target hresident).2.1
  have hencoding := htarget.good.large hlarge
  obtain ⟨status, hentry⟩ := h.kept label target hresident
  have halone : (false || decide (maxEmbedded < target.encode.length)) = true := by
    by_contra hnot
    rw [Origin.isSmall_of_not_alone (Bool.eq_false_iff.2 hnot)] at hlarge
    cases hlarge
  have hvisits := h.visits_of_consult schedule.inj htarget hencoding
    (opening_of_parallel schedule.goal hparallel rfl hdigest)
    (fun hnone => by rw [hentry] at hnone; cases hnone) fun hnot => by
      rw [halone] at hnot
      cases hnot
  refine (carries_walkTarget hlink htarget (fun _ => hencoding) hvisits (fun hlow => ?_)
    rest).at_state ⟨⟨rfl, hmeets⟩, hdigest, nofun, fun _ hsmall => ?_⟩
  · exact hfollow held target subset_rfl htarget hdigest hencoding
      (hmeets.low _ _ _ hentry (hlow halone _ _ hentry))
  · rw [hlarge] at hsmall
    cases hsmall

/-- A soft link whose target is fetched, as the entry does not have the status. -/
theorem carries_softFetched
    (hlow : ∀ encoding status, site.store.find? digest = some (encoding, status) →
      status < schedule.goal) :
    origin.tending.Carries held (fun s => s = site)
      (do
        let target ← resolve (.soft label digest)
        (Link.soft label digest).walkTarget schedule.goal false target target.encode
          (follow target))
      (fun _ _ => schedule.Done (.soft label digest) rest) schedule.Fails := by
  refine (carries_resolve h hlink hmeets hparallel).bind
    fun target held₁ hsub₁ => .from_state fun site₁ hinv₁ hpost => ?_
  have h₁ : origin.Orderly held₁ site₁ := hinv₁
  obtain ⟨⟨htarget, hleads, hencoding⟩, ⟨status, hentry⟩, hasked⟩ := hpost
  have hdigest : target.digest = digest := hleads.digest
  rw [← hasked.store] at hentry hparallel hlow
  have hvisits := h₁.visits_of_consult schedule.inj htarget hencoding
    (opening_of_parallel schedule.goal hparallel rfl hleads.digest)
    (fun hnone => by rw [hdigest, hentry] at hnone; cases hnone)
    fun _ => hdigest.symm ▸ hlow
  have hmeets₁ := hasked.agenda_eq (.link plan :: rest) ▸ hmeets
  refine (carries_walkTarget (hsub₁ hlink) htarget (fun _ => hencoding) hvisits (fun _ => ?_)
    rest).at_state ⟨⟨rfl, hmeets₁⟩, hleads⟩
  exact hfollow held₁ target hsub₁ htarget hdigest hencoding
    (hmeets₁.low _ _ _ hentry (hlow _ _ hentry))

end

/-- A soft link, given how the links of its target are walked. -/
theorem carries_walkSoft {label : Label} {digest : Digest} (hlink : .soft label digest ∈ held)
    {plan : Link} {follow : Cell → StoreAction Unit}
    (hfollow : schedule.Leads held digest follow) (rest : List Task) :
    origin.tending.Carries held
      (fun site => schedule.Meets (site.agenda (.link plan :: rest)) ∧
        (Link.soft label digest).Parallel (View.Has site.store.find?)
          (Cell.Parallel (View.Has site.store.find?)) plan)
      ((Link.soft label digest).walkSoft schedule.goal false follow)
      (fun _ _ => schedule.Done (.soft label digest) rest) schedule.Fails := by
  refine carries_unlessReached (fun site hinv hpre hle => ⟨hpre.1.idle
    (idle_of_reached hinv hlink hpre.2 hle), hle⟩) (.get_bind fun site hinv hpre => ?_)
  obtain ⟨hmeets, hparallel⟩ := hpre
  cases hresident : site.known.resident (.soft label digest) with
  | some target => exact carries_softHeld hinv hlink hmeets hparallel hfollow hresident
  | none =>
    refine carries_adopt hlink (fun site' _ hsite encoding status hentry hle => ?_)
      (.from_state fun site' _ hsite => ?_)
    · obtain rfl : site' = site := hsite
      have hbrought : ∀ named ∈ (Link.soft label digest).named,
          View.Brought site'.store.find? status named := by
        rw [Link.named_of_not_inline rfl]
        intro named hnamed
        exact List.mem_singleton.1 hnamed ▸ .entry hentry le_rfl
      have hnamed := hparallel.named_eq
      exact ⟨hbrought, done_advance (hmeets.idle (Agenda.idle_link fun named hmem =>
        (hbrought named (hnamed ▸ hmem)).grows (.refl _) hle)) hle⟩
    · obtain ⟨hsite, hlow⟩ := hsite
      obtain rfl : site = site' := hsite.symm
      exact carries_softFetched hinv hlink hmeets hparallel hfollow hlow

/-! ### All links below a cell -/

variable {cell : Cell} {hops : Nat}

/-- A direct link of a cell whose target can be dealt with. -/
theorem carries_directBelow {site : Site} (h : origin.Orderly held site) {label : Label}
    (hlink : .direct label target ∈ held) (htarget : target.Within origin.Covers held)
    {plan : Link} {rest : List Task} (hmeets : schedule.Meets (site.agenda (.link plan :: rest)))
    (hparallel : (Link.direct label target).Parallel (View.Has site.store.find?)
      (Cell.Parallel (View.Has site.store.find?)) plan)
    {children : StoreAction Unit} (hchildren : schedule.Deals held target children) :
    origin.tending.Carries held (fun s => s = site)
      ((Link.direct label target).walkDirect schedule.goal false target target.encode children)
      (fun _ _ => schedule.Done (.direct label target) rest) schedule.Fails := by
  have halone : (false || decide (maxEmbedded < target.encode.length)) = true →
      target.encode ∈ origin.encodings := Origin.encode_mem_of_alone htarget nofun
  have hvisits : Agenda.Visits schedule.goal site.store.find? target
      (false || decide (maxEmbedded < target.encode.length)) (.link plan) := by
    cases hsmall : target.isSmall with
    | true =>
      obtain ⟨below, hinline, hbelow⟩ := hparallel.exists_inline (if_pos hsmall)
      have hnot : (false || decide (maxEmbedded < target.encode.length)) = false :=
        decide_eq_false (Nat.not_lt.2 ((Cell.isSmall_iff target).1 hsmall))
      refine .enter (fun htrue => absurd (hnot.symm.trans htrue) Bool.false_ne_true) hbelow ?_
      rw [hnot, Agenda.opening, hinline, Agenda.visit, if_neg Bool.false_ne_true, List.append_nil]
    | false =>
      refine h.visits_of_consult schedule.inj htarget (htarget.good.large hsmall)
        (opening_of_parallel schedule.goal hparallel
          (if_neg (Bool.eq_false_iff.1 hsmall)) rfl) (fun hnone => ?_) fun hnot => ?_
      · cases hparallel with
        | entry _ _ hhas =>
          rw [View.Has, Link.digest, hnone] at hhas
          cases hhas
        | direct below => exact ⟨_, rfl, below⟩
      · rw [Origin.isSmall_of_not_alone hnot] at hsmall
        cases hsmall
  exact (carries_walkDirect hlink htarget halone hvisits hchildren rest).at_state
    ⟨⟨rfl, hmeets⟩, idle_of_reached h hlink hparallel⟩

variable (schedule) in
/-- A walk of the links of a cell, whichever it is, as long as there are hops left for it. -/
def Follows (hops : Nat) (held : Set Link) (follow : Cell → StoreAction Unit) : Prop :=
  ∀ held' (target : Cell), held ⊆ held' → target.Within origin.Covers held' →
    Trail.Room origin.encodings schedule.stops hops target →
    schedule.Deals held' target (follow target)

/-- One link of a cell. -/
theorem carries_walkBelow (hcell : cell.Within origin.Covers held)
    (hroom : Trail.Room origin.encodings schedule.stops (hops + 1) cell) (hlink : link ∈ cell.links)
    {follow : Cell → StoreAction Unit} (hfollow : schedule.Follows hops held follow)
    (hdirect : ∀ target, link.target? = some target → target.Within origin.Covers held →
      Trail.Room origin.encodings schedule.stops (hops + 1) target →
      schedule.Deals held target (target.encodeWalking schedule.goal follow).2)
    (plan : Link) (rest : List Task) :
    origin.tending.Carries held
      (fun site => schedule.Meets (site.agenda (.link plan :: rest)) ∧
        link.Parallel (View.Has site.store.find?) (Cell.Parallel (View.Has site.store.find?)) plan)
      (link.walkBelow schedule.goal follow) (fun _ _ => schedule.Done link rest)
      schedule.Fails := by
  have hheld := hcell.links link (Cell.mem_everyLink_of_mem hlink)
  refine .from_state fun site hinv hpre => ?_
  have horderly : origin.Orderly held site := hinv
  have hsound := Origin.sound_of_within horderly.coherent hcell
  cases link with
  | soft label digest =>
    refine (carries_walkSoft hheld (fun held' target hsub htarget hdigest hencoding hstop => ?_)
      rest).at_state hpre
    have hrefers := Cell.refers_of_not_inline hsound hlink rfl hdigest hencoding
    exact hfollow held' target hsub htarget (hroom.follow hrefers hstop)
  | direct label target =>
    have htarget := horderly.coherent.target _ hheld target rfl
    have hencloses : Encloses origin.encodings cell.encode target.encode := by
      cases hsmall : target.isSmall with
      | true =>
        exact Cell.encloses_of_inline hsound (Origin.sound_of_within horderly.coherent htarget)
          hlink (if_pos hsmall)
      | false =>
        exact .inr (Cell.refers_of_not_inline hsound hlink (if_neg (Bool.eq_false_iff.1 hsmall))
          rfl (htarget.good.large hsmall))
    exact carries_directBelow horderly hheld htarget hpre.1 hpre.2
      (hdirect target rfl htarget (hroom.child hencloses))

/-- There are links in the same places of a plan that are still to be dealt with. -/
def Remains (schedule : Schedule origin) (rest : List Task) (links : List Link) (site : Site) :
    Prop :=
  ∃ plans, List.Forall₂ (Link.Parallel (View.Has site.store.find?)
      (Cell.Parallel (View.Has site.store.find?))) links plans ∧
    schedule.Meets (site.agenda (plans.map .link ++ rest))

/-- The first of the links that remain is dealt with. -/
theorem Remains.carries {links : List Link} {rest : List Task} {walk : StoreAction Unit}
    (hwalk : ∀ plan rest, origin.tending.Carries held
      (fun site => schedule.Meets (site.agenda (.link plan :: rest)) ∧
        link.Parallel (View.Has site.store.find?) (Cell.Parallel (View.Has site.store.find?)) plan)
      walk (fun _ _ => schedule.Done link rest) schedule.Fails) :
    origin.tending.Carries held (schedule.Remains rest (link :: links)) walk
      (fun _ _ site => schedule.Remains rest links site ∧
        schedule.goal ≤ site.known.statusAt link.label) schedule.Fails := by
  refine .from_state fun site _ hpre => ?_
  obtain ⟨_, hforall, hmeets⟩ := hpre
  cases hforall with
  | @cons _ plan _ plans hlink hlinks =>
    have hcarry := (hwalk plan (plans.map .link ++ rest)).carry
      (fun site => List.Forall₂ (Link.Parallel (View.Has site.store.find?)
        (Cell.Parallel (View.Has site.store.find?))) links plans)
      fun _ _ _ _ hmoves h => h.imp fun _ _ hlink =>
        hlink.mono (Site.Moves.has hmoves) fun _ _ hcell => hcell.mono (Site.Moves.has hmoves)
    exact (hcarry.at_state ⟨⟨hmeets, hlink⟩, hlinks⟩).mono (fun _ _ h => h)
      fun _ _ _ _ _ hpost => ⟨⟨plans, hpost.2, hpost.1.1⟩, hpost.1.2⟩

theorem follows_encodeWalking {follow : Cell → StoreAction Unit}
    (hfollow : schedule.Follows hops held follow) :
    schedule.Follows (hops + 1) held fun cell =>
      (cell.encodeWalking schedule.goal follow).2 := by
  intro held' cell hsub hcell hroom
  -- The induction is on the cell, as in the walk: the targets that it holds are below it.
  induction cell using Cell.induct generalizing held' with
  | step label value ih =>
    intro held₁ plan rest hsub₁
    dsimp only
    rw [Cell.encodeWalking_snd]
    have hwalks : origin.tending.Carries held₁ (schedule.Remains rest value.links)
        (value.links.forM (Link.walkBelow schedule.goal follow))
        (fun _ _ site => schedule.Remains rest [] site ∧
          ∀ link ∈ value.links, schedule.goal ≤ site.known.statusAt link.label)
        schedule.Fails := by
      refine .forM (fun link hlink rest' held₂ hsub₂ => ?_)
        fun link _ _ _ _ hmoves h => h.trans (hmoves.known.status link.label)
      have hsub₃ := (hsub.trans hsub₁).trans hsub₂
      exact Remains.carries fun plan rest => carries_walkBelow (hcell.mono (hsub₁.trans hsub₂))
        hroom hlink (fun held₄ target hsub₄ => hfollow held₄ target (hsub₃.trans hsub₄))
        (fun target ht htarget hbelow => ih link hlink target ht held₂ hsub₃ htarget hbelow)
        plan rest
    refine hwalks.mono (fun site _ h => ⟨plan.links, h.2.links, h.1⟩) fun _ _ site _ _ h => ?_
    obtain ⟨⟨plans, hnil, hmeets⟩, hreached⟩ := h
    cases hnil
    exact ⟨hmeets, hreached⟩

/-- The walk of a cell's children. The hops do not run out. -/
theorem follows_walkChildren (hops : Nat) :
    schedule.Follows hops held (Cell.walkChildren schedule.goal hops) := by
  induction hops with
  | zero =>
    intro held' cell _ _ hroom
    obtain ⟨encoding, hstop, hdepends⟩ := hroom.exists_depends_self
    exact absurd hdepends (schedule.ends encoding hstop)
  | succ hops ih => exact follows_encodeWalking ih

/-! ### Walks from a cell -/

/-- The link that is made for a cell is new. -/
theorem carries_link {site : Site} (h : origin.Orderly held site)
    (hcell : cell.Within origin.Covers held) {fails : StoreFault → Site → Prop} :
    origin.tending.Carries held (fun s => s = site) (ofCalc cell.link)
      (fun link held' site' => (∃ label, link = .direct label cell ∧ link ∈ held' ∧
          site'.known.statusAt label = .unknown) ∧
        hopLimit site' = hopLimit site ∧ site.Asked site') fails := by
  intro s _ hsite
  obtain rfl : site = s := hsite.symm
  have hkeeps : h.now.law.Keeps held (fun _ => True) (ofCalc cell.link) _ :=
    Origin.extends_covers.keeps_ofCalc (Knowledge.keeps_link (h.covers_now.symm ▸ hcell))
  obtain ⟨held', hsub, horderly, hasked, hpost⟩ := h.ask (.link cell) hkeeps
  refine ⟨held', hsub, horderly, hasked.moves, ⟨site.known.next, rfl, (hpost _ rfl).1, ?_⟩, rfl,
    hasked⟩
  exact h.coherent.status site.known.next (Nat.le_refl _)

/-- A walk from a cell, by any plan of it. -/
theorem carries_make (hcell : cell.Within origin.Covers held)
    (hencoding : cell.encode ∈ origin.encodings) {plan : Cell} :
    origin.tending.Carries held
      (fun site => (schedule.Meets (site.agenda [.cell plan]) ∧
          cell.Parallel (View.Has site.store.find?) plan) ∧
        schedule.stops.length < hopLimit site)
      (make schedule.goal cell)
      (fun link held' site => (∃ label, link = .direct label cell) ∧ link ∈ held' ∧
        schedule.Meets (site.agenda [])) schedule.Fails := by
  refine .from_state fun site hinv hpre => ?_
  obtain ⟨⟨hmeets, hparallel⟩, hhops⟩ := hpre
  refine (carries_link hinv hcell).bind fun link held₁ hsub₁ => .from_state fun site₁ hinv₁ hpost =>
    ?_
  obtain ⟨⟨label, rfl, hlink, hunknown⟩, hlimit, hasked⟩ := hpost
  have hcell₁ := hcell.mono hsub₁
  rw [← hlimit] at hhops
  rw [← hasked.store] at hparallel
  have hmeets₁ := hasked.agenda_eq [.cell plan] ▸ hmeets
  have hopening : Agenda.opening schedule.goal site₁.store.find? (.cell plan) =
      Agenda.consult schedule.goal site₁.store.find? true cell.digest (some plan) := by
    rw [Agenda.opening, hparallel.digest_eq]
  have hvisits := hinv₁.visits_of_consult schedule.inj hcell₁ hencoding hopening
    (fun _ => ⟨plan, rfl, hparallel⟩) fun htop => by simp at htop
  have hchildren : schedule.Deals held₁ cell
      (cell.walkChildren schedule.goal (hopLimit site₁)) :=
    follows_walkChildren (hopLimit site₁) held₁ cell subset_rfl hcell₁ (.nil hhops)
  have hidle : schedule.goal ≤ site₁.known.statusAt label →
      Agenda.Idle schedule.goal site₁.store.find? (.cell plan) := fun hle => by
    rw [hunknown] at hle
    exact absurd (schedule.stored.trans hle) (by decide)
  have hwalk := (carries_walkDirect hlink hcell₁ (fun _ => hencoding) hvisits hchildren
    []).at_state ⟨⟨rfl, hmeets₁⟩, hidle⟩
  exact Law.Carries.bind (Law.Carries.get_bind fun _ _ hsite => hsite ▸ hwalk)
    fun _ held₂ hsub₂ => .pure fun _ _ hdone => ⟨⟨label, rfl⟩, hsub₂ hlink, hdone.1⟩

end Schedule

namespace Origin

variable {origin : Origin} {held : Set Link} {site : Site} {goal : Status} {cell plan : Cell}

open Classical in
/-- The agenda of a walk from a cell, which may stop at any entry that does not lead to itself. -/
noncomputable def schedule (hinj : Set.InjOn Digest.of origin.encodings) (hstored : .stored ≤ goal)
    (site : Site) (plan : Cell) : Schedule origin where
  goal := goal
  start := site.agenda [.cell plan]
  stops := site.stops.filter fun encoding => ¬Depends origin.encodings encoding encoding
  inj := hinj
  stored := hstored
  ends _ hstop := of_decide_eq_true (List.mem_filter.1 hstop).2

open Classical in
/-- No entry leads to itself. -/
theorem Orderly.meets_schedule (h : origin.Orderly held site)
    (hinj : Set.InjOn Digest.of origin.encodings) (hstored : .stored ≤ goal) (plan : Cell) :
    (schedule hinj hstored site plan).Meets (site.agenda [.cell plan]) := by
  refine ⟨.refl _ _, fun key encoding status hentry _ => List.mem_filter.2 ⟨?_, ?_⟩⟩
  · exact List.mem_append_left _ (Store.mem_encodings hentry)
  · have hcomplete := h.whole key (by rw [show site.store.find? key = _ from hentry]; rfl)
    exact decide_eq_true (hcomplete.not_depends h.store h.encodings hinj
      (h.encodings _ _ _ hentry) (h.store.key _ _ _ hentry))

/--
A walk from a cell comes to the end of the agenda for any plan of the cell, or fails where the
agenda goes no further.
-/
theorem Orderly.make (h : origin.Orderly held site) (hinj : Set.InjOn Digest.of origin.encodings)
    (hstored : .stored ≤ goal) (hcell : cell.Within origin.Covers held)
    (hencoding : cell.encode ∈ origin.encodings)
    (hparallel : cell.Parallel (View.Has site.store.find?) plan) :
    ∃ held', held ⊆ held' ∧ origin.Orderly held' ((StoreAction.make goal cell).run.run site).2 ∧
      site.Moves ((StoreAction.make goal cell).run.run site).2 ∧
      match ((StoreAction.make goal cell).run.run site).1 with
      | .ok link => ((∃ label, link = .direct label cell) ∧ link ∈ held') ∧
          Agenda.Ends goal (site.agenda [.cell plan])
            (((StoreAction.make goal cell).run.run site).2.agenda []) none
      | .error fault => ∃ digest tasks, fault = .cell (.missingData digest) ∧
          Agenda.Ends goal (site.agenda [.cell plan])
            (((StoreAction.make goal cell).run.run site).2.agenda tasks) (some digest) := by
  have hmeets := h.meets_schedule hinj hstored plan
  have hhops : (schedule hinj hstored site plan).stops.length < hopLimit site :=
    (List.length_filter_le _ _).trans_lt site.stops_lt_hopLimit
  obtain ⟨held', hsub, horderly, hmoves, hend⟩ :=
    Schedule.carries_make hcell hencoding site h ⟨⟨hmeets, hparallel⟩, hhops⟩
  refine ⟨held', hsub, horderly, hmoves, ?_⟩
  cases houtcome : ((StoreAction.make goal cell).run.run site).1 with
  | ok link =>
    simp only [schedule, houtcome] at hend
    exact ⟨⟨hend.1, hend.2.1⟩, .done hend.2.2.reaches rfl⟩
  | error fault =>
    simp only [schedule, houtcome] at hend
    obtain ⟨digest, tasks, hfault, hreached, hlacks⟩ := hend
    exact ⟨digest, tasks, hfault, .lacking hreached.reaches hlacks⟩

end Origin

end CellGraph
