import CellGraph.Proofs.Walk.Trace

/-!
# The course of a walk

A walk goes from cell to cell along links. It writes a cell after all that the cell refers to, and
stops where a soft link leads nowhere, or after more hops than there are cells to hop to. For then
some cell depends on itself.

* `Origin.Watches`: what a walk relies on;
* `Plan`, `Plan.Opens`: what a walk may visit and write, and how it may fail; links that it follows;
* `Course`: plans by which all links of the cells that are visited are followed;
* `Trail`, `Trail.Room`: the soft links that were followed on the way to a cell, and hops left;
* `Plan.Ready`: a cell that can be visited with a number of hops left;
* `Course.everything`, `Course.below`: the course of any walk, and that of a walk from a cell.
-/

namespace CellGraph

open StoreAction

/-! ### What a walk relies on -/

/--
A walk to a status starts on this site. Digests tell encodings apart, and whatever a link with a
status names is backed by the store.
-/
structure Origin.Watches (origin : Origin) (start : Site) (goal : Status) : Prop where
  inj : Set.InjOn Digest.of origin.encodings
  stored : .stored ≤ goal
  sound : start.store.Sound
  backed : ∀ link ∈ origin.held, ∀ status, .stored ≤ status →
    status ≤ origin.known.statusAt link.label → ∀ digest ∈ link.named,
    start.store.Backs digest status

namespace Origin.Inv

variable {origin : Origin} {held : Set Link} {start site : Site} {goal : Status}

/-- What is settled is backed by the store. -/
theorem backs (hw : origin.Watches start goal) (hmoves : start.Moves site) {rank : Nat}
    {names : List Digest} {status : Status} (hstored : .stored ≤ status)
    (h : origin.Settles site.store rank names status) :
    ∀ digest ∈ names, site.store.Backs digest status := by
  intro digest hdigest
  rcases h digest hdigest with hbacks | ⟨link, hlink, -, hnamed, hle⟩
  · exact hbacks
  · exact (hw.backed link hlink status hstored hle digest hnamed).mono hmoves.store le_rfl

theorem founded (h : origin.Inv held site) (hw : origin.Watches start goal)
    (hmoves : start.Moves site) : site.store.Founded := fun key encoding status hentry =>
  backs hw hmoves (h.store.stored key encoding status hentry)
    (h.closed hw.inj key encoding status hentry)

end Origin.Inv

/--
A soft link below a cell, as links led when a walk started, holds nothing, and there is no entry for
its digest.
-/
def Site.Dangling (start : Site) (top : Cell) (digest : Digest) (site : Site) : Prop :=
  ∃ cell label, Relation.ReflTransGen start.Child top cell ∧ .soft label digest ∈ cell.links ∧
    site.known.resident (.soft label digest) = none ∧ site.store.find? digest = none

/--
What a walk may visit and write, and how it may fail. It may at least if an encoding depends on
itself.
-/
structure Plan (origin : Origin) (start : Site) (goal : Status) where
  visits : Cell → Prop
  written : Set Bytes
  fails : StoreFault → Site → Prop
  endless : ∀ {encoding : Bytes} {site : Site}, Depends origin.encodings encoding encoding →
    Site.Trace origin.encodings start goal written site → fails .endlessLinks site

/--
A link of a cell may be followed: a walk may visit the cells to which it leads, and write what the
cell refers to. If it is a soft link that holds nothing and has no entry, the walk may fail.
-/
structure Plan.Opens {origin : Origin} {start : Site} {goal : Status}
    (plan : Plan origin start goal) (cell : Cell) (link : Link) : Prop where
  child : ∀ {target : Cell}, start.Target link target →
    Encloses origin.encodings cell.encode target.encode → plan.visits target
  writes : ∀ {encoding : Bytes}, Refers origin.encodings cell.encode encoding →
    encoding ∈ plan.written
  missing : ∀ {label : Label} {digest : Digest} {site : Site}, link = .soft label digest →
    Site.Trace origin.encodings start goal plan.written site → site.known.resident link = none →
    site.store.find? digest = none → plan.fails (.cell (.missingData digest)) site

/-- A plan by which all links of the cells that are visited may be followed. -/
structure Course (origin : Origin) (start : Site) (goal : Status)
    extends Plan origin start goal where
  child : ∀ {cell target : Cell} {link : Link}, visits cell → link ∈ cell.links →
    start.Target link target → Encloses origin.encodings cell.encode target.encode → visits target
  writes : ∀ {cell : Cell} {encoding : Bytes}, visits cell →
    Refers origin.encodings cell.encode encoding → encoding ∈ written
  missing : ∀ {cell : Cell} {label : Label} {digest : Digest} {site : Site}, visits cell →
    .soft label digest ∈ cell.links → Site.Trace origin.encodings start goal written site →
    site.known.resident (.soft label digest) = none → site.store.find? digest = none →
    fails (.cell (.missingData digest)) site

/-! ### Soft links in a row -/

/--
The encodings of the cells to which soft links have been followed on the way to a cell, the latest
first.
-/
structure Trail (encodings : Set Bytes) (stops path : List Bytes) (cell : Cell) : Prop where
  stops : path ⊆ stops
  chain : path.Pairwise fun later earlier => Depends encodings earlier later
  leads : ∀ stop ∈ path, ∀ encoding, Refers encodings cell.encode encoding →
    Depends encodings stop encoding

namespace Trail

variable {encodings : Set Bytes} {stops path : List Bytes} {cell target : Cell}

theorem nil : Trail encodings stops [] cell := ⟨List.nil_subset _, .nil, nofun⟩

/-- The trail to a cell is that to the cells that it encloses. -/
theorem child (h : Trail encodings stops path cell)
    (hencloses : Encloses encodings cell.encode target.encode) :
    Trail encodings stops path target :=
  ⟨h.stops, h.chain, fun stop hstop _ hrefers =>
    hencloses.depends (h.leads stop hstop) hrefers⟩

/-- A soft link is followed. -/
theorem follow (h : Trail encodings stops path cell)
    (hrefers : Refers encodings cell.encode target.encode) (hstop : target.encode ∈ stops) :
    Trail encodings stops (target.encode :: path) target := by
  refine ⟨List.cons_subset.2 ⟨hstop, h.stops⟩, ?_, fun stop hmem encoding hencoding => ?_⟩
  · exact List.pairwise_cons.2 ⟨fun stop hmem => h.leads stop hmem _ hrefers, h.chain⟩
  · rcases List.mem_cons.1 hmem with rfl | hmem
    · exact .single hencoding
    · exact .tail (h.leads stop hmem _ hrefers) hencoding

/-- A trail that is too long comes past one encoding twice. -/
theorem exists_depends_self (h : Trail encodings stops path cell)
    (hlength : stops.length < path.length) :
    ∃ encoding ∈ stops, Depends encodings encoding encoding := by
  by_contra hnot
  have hnodup : path.Nodup := h.chain.imp_of_mem fun {a b} ha _ hdepends heq => by
    subst heq
    exact hnot ⟨a, h.stops ha, hdepends⟩
  exact absurd (hnodup.subperm h.stops).length_le (Nat.not_le.2 hlength)

/-- There is a trail to a cell, and so many hops are left that they do not run out. -/
def Room (encodings : Set Bytes) (stops : List Bytes) (hops : Nat) (cell : Cell) : Prop :=
  ∃ path, Trail encodings stops path cell ∧ stops.length < hops + path.length

namespace Room

variable {hops : Nat}

theorem nil (h : stops.length < hops) : Room encodings stops hops cell := ⟨[], .nil, h⟩

theorem child (h : Room encodings stops hops cell)
    (hencloses : Encloses encodings cell.encode target.encode) :
    Room encodings stops hops target := by
  obtain ⟨path, htrail, hlength⟩ := h
  exact ⟨path, htrail.child hencloses, hlength⟩

theorem follow (h : Room encodings stops (hops + 1) cell)
    (hrefers : Refers encodings cell.encode target.encode) (hstop : target.encode ∈ stops) :
    Room encodings stops hops target := by
  obtain ⟨path, htrail, hlength⟩ := h
  refine ⟨_, htrail.follow hrefers hstop, ?_⟩
  rw [List.length_cons]
  omega

/-- Without hops left, one of the stops depends on itself. -/
theorem exists_depends_self (h : Room encodings stops 0 cell) :
    ∃ encoding ∈ stops, Depends encodings encoding encoding := by
  obtain ⟨path, htrail, hlength⟩ := h
  exact htrail.exists_depends_self (by omega)

end Room

end Trail

namespace Plan

variable {origin : Origin} {start : Site} {goal : Status}

/-- A cell that may be visited, with so many hops left for the soft links below it. -/
def Ready (plan : Plan origin start goal) (hops : Nat) (cell : Cell) : Prop :=
  plan.visits cell ∧ Trail.Room origin.encodings start.stops hops cell

/-- What has happened so far. -/
abbrev Traced (plan : Plan origin start goal) (site : Site) : Prop :=
  Site.Trace origin.encodings start goal plan.written site

/-- At first, no soft link has been followed. -/
theorem ready_of_visits (plan : Plan origin start goal) {hops : Nat} {cell : Cell}
    (hvisits : plan.visits cell) (hhops : start.stops.length < hops) : plan.Ready hops cell :=
  ⟨hvisits, .nil hhops⟩

namespace Opens

variable {plan : Plan origin start goal} {hops : Nat} {cell target : Cell} {link : Link}

/-- The target of a link that is followed; as many hops are left if the link holds it. -/
theorem ready_child (h : plan.Opens cell link)
    (hroom : Trail.Room origin.encodings start.stops hops cell) (htarget : start.Target link target)
    (hencloses : Encloses origin.encodings cell.encode target.encode) :
    plan.Ready hops target :=
  ⟨h.child htarget hencloses, hroom.child hencloses⟩

theorem ready_follow (h : plan.Opens cell link)
    (hroom : Trail.Room origin.encodings start.stops (hops + 1) cell)
    (htarget : start.Target link target)
    (hrefers : Refers origin.encodings cell.encode target.encode)
    (hstop : target.encode ∈ start.stops) : plan.Ready hops target :=
  ⟨h.child htarget (.inr hrefers), hroom.follow hrefers hstop⟩

end Opens

end Plan

namespace Course

variable {origin : Origin} {start : Site} {goal : Status}

theorem opens (course : Course origin start goal) {cell : Cell} {link : Link}
    (hvisits : course.visits cell) (hlink : link ∈ cell.links) : course.Opens cell link where
  child htarget hencloses := course.child hvisits hlink htarget hencloses
  writes hrefers := course.writes hvisits hrefers
  missing heq htrace hresident hentry := by
    subst heq
    exact course.missing hvisits hlink htrace hresident hentry

/-! ### Two courses -/

/-- The course of any walk. -/
def everything (origin : Origin) (start : Site) (goal : Status) : Course origin start goal where
  visits _ := True
  written := Set.univ
  fails _ site := Site.Trace origin.encodings start goal Set.univ site
  child _ _ _ _ := trivial
  writes _ _ := trivial
  missing _ _ htrace _ _ := htrace
  endless _ htrace := htrace

/--
The course of a walk from a cell. All that it writes before the cell itself, the cell depends on;
and where it fails, a soft link below the cell leads nowhere.
-/
def below (origin : Origin) (start : Site) (goal : Status) (top : Cell) :
    Course origin start goal where
  visits cell := Relation.ReflTransGen start.Child top cell ∧
    ∀ encoding, Refers origin.encodings cell.encode encoding →
      Depends origin.encodings top.encode encoding
  written := {encoding | Depends origin.encodings top.encode encoding}
  fails fault site :=
    Site.Trace origin.encodings start goal
        {encoding | Depends origin.encodings top.encode encoding} site ∧
      ((∃ digest, fault = .cell (.missingData digest) ∧ start.Dangling top digest site) ∨
        fault = .endlessLinks ∧ ∃ encoding, Depends origin.encodings encoding encoding)
  child hvisits hlink htarget hencloses :=
    ⟨hvisits.1.tail ⟨_, hlink, htarget⟩, fun _ hrefers => hencloses.depends hvisits.2 hrefers⟩
  writes hvisits hrefers := hvisits.2 _ hrefers
  missing hvisits hlink htrace hresident hentry :=
    ⟨htrace, .inl ⟨_, rfl, _, _, hvisits.1, hlink, hresident, hentry⟩⟩
  endless hdepends htrace := ⟨htrace, .inr ⟨rfl, _, hdepends⟩⟩

theorem visits_below (origin : Origin) (start : Site) (goal : Status) (top : Cell) :
    (below origin start goal top).visits top :=
  ⟨.refl, fun _ hrefers => .single hrefers⟩

end Course

end CellGraph
