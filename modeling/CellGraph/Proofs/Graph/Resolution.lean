import CellGraph.Proofs.Cell.Comparison
import CellGraph.Proofs.Graph.Emission
import CellGraph.Proofs.Walk.Closure
import Mathlib.Logic.Relation

/-!
# Resolving never changes a value

Whatever answers links are given when they are resolved, and in whatever order this is mixed with
other requests, every cell is written in one way at all times, with and without what has been noted.
Links stay sound: they take only cells of their digest, hold only large ones, and lose nothing.

* `Link.run_resolve`: what becomes of a link that is given an answer;
* `Graph.Step`, `Graph.Reached`: what a user may do with a graph;
* `Graph.Inv`, `Graph.Step.inv`: what holds of a graph at all times;
* `Graph.resolving_keeps_values`: what this means for what is written, and for links.
-/

namespace CellGraph

/-! ### Answers to a link -/

/-- What becomes of a link that is given an answer, if it does not hold its target. -/
theorem Link.run_resolve (link : Link) (answer : Except Fault (Option Cell)) (known : Knowledge) :
    let result := (link.resolve fun _ => liftM answer).run.run known
    (∀ fault, result.1 = .error fault → known.Notes result.2) ∧
      ∀ cell, result.1 = .ok cell →
        known.resident link = some cell ∧ result.2 = known ∨
        known.resident link = none ∧ answer = .ok (some cell) ∧ cell.digest = link.digest ∧
          ∃ noted, known.Notes noted ∧ result.2 =
            (if cell.isSmall then noted else noted.keep link cell).advance link .verified := by
  dsimp only
  cases hresident : known.resident link with
  | some held =>
    have hrun : (link.resolve fun _ => liftM answer).run.run known = (.ok held, known) := by
      rw [resolve, run_run_bind, run_run_get]
      dsimp only
      rw [hresident]
      rfl
    rw [hrun]
    refine ⟨fun fault hfault => ?_, fun cell hcell => .inl ?_⟩
    · cases hfault
    · cases hcell
      exact ⟨rfl, rfl⟩
  | none =>
    have hrun : (link.resolve fun _ => liftM answer).run.run known =
        ((liftM answer : Attempt (Option Cell)) >>= link.accept).run.run known := by
      rw [resolve, run_run_bind, run_run_get]
      dsimp only
      rw [hresident]
    rw [hrun]
    cases answer with
    | error fault => exact ⟨fun _ _ => .refl _, fun _ hcell => by cases hcell⟩
    | ok found =>
      have hfound : ((liftM (.ok found : Except Fault (Option Cell)) : Attempt (Option Cell)) >>=
          link.accept).run.run known = (link.accept found).run.run known := rfl
      rw [hfound]
      cases found with
      | none => exact ⟨fun _ _ => .refl _, fun _ hcell => by cases hcell⟩
      | some cell =>
        by_cases hdigest : cell.digest = link.digest
        · obtain ⟨noted, hnotes, haccept⟩ := run_accept hdigest known
          rw [haccept]
          refine ⟨fun fault hfault => ?_, fun found hfound => .inr ?_⟩
          · cases hfault
          · cases hfound
            exact ⟨rfl, rfl, hdigest, noted, hnotes, rfl⟩
        · have hhash : (cell.hash.run known).1 = cell.digest := cell.fst_hash known
          have haccept : (link.accept (some cell)).run.run known =
              (.error (.invalidData (.wrongContent cell.digest link.digest)),
                (cell.hash.run known).2) := by
            rw [accept, run_run_bind, run_run_liftM]
            dsimp only
            rw [hhash, if_pos hdigest]
            rfl
          rw [haccept]
          exact ⟨fun _ _ => cell.onlyNotes_hash known, fun _ hcell => by cases hcell⟩

/-- Whatever a link is answered, knowledge only grows. -/
theorem Link.grows_resolve (link : Link) (answer : Except Fault (Option Cell))
    (known : Knowledge) :
    known.Grows ((link.resolve fun _ => liftM answer).run.run known).2 := by
  obtain ⟨herror, hok⟩ := link.run_resolve answer known
  cases houtcome : ((link.resolve fun _ => liftM answer).run.run known).1 with
  | error fault => exact (herror fault houtcome).learns.toGrows
  | ok cell =>
    rcases hok cell houtcome with ⟨-, heq⟩ | ⟨-, -, -, noted, hnotes, heq⟩
    · rw [heq]
      exact .refl _
    · rw [heq]
      refine hnotes.learns.toGrows.trans ?_
      split
      · exact .advance noted link _
      · exact (Knowledge.Learns.keep noted link cell).toGrows.trans (.advance _ link _)

namespace Graph

open Session (largeBlob)

variable {graph graph' : Graph} {held held' : Set Link} {cell : Cell} {link : Link}

/-! ### What a user may do -/

/-- Resolve a link, this being what is found for it, or the fault of looking for it. -/
def resolve (graph : Graph) (link : Link) (answer : Except Fault (Option Cell)) :
    Except Fault Cell × Graph :=
  let result := (link.resolve fun _ => liftM answer).run.run graph.known
  (result.1, { graph with session := { graph.session with
    known := result.2, items := graph.session.items ++ result.1.toOption.toList.map .cell } })

/-- Make or read cells and links, or change a map or a record. -/
def perform (graph : Graph) (operation : Operation) : Graph :=
  { graph with session := graph.session.perform (.cells operation) }

/-- Change what is known. -/
def withKnown (graph : Graph) (known : Knowledge) : Graph :=
  { graph with session := { graph.session with known } }

/-- Note an encoding for a cell, unless one has been noted. -/
def noteEncoding (graph : Graph) (cell : Cell) (bytes : Bytes) : Graph :=
  { graph with encodings :=
      Function.update graph.encodings cell.label ((graph.encodings cell.label).getD bytes) }

/-- Note a digest for a cell, unless one has been noted. -/
def noteDigest (graph : Graph) (cell : Cell) (digest : Digest) : Graph :=
  { graph with digests :=
      Function.update graph.digests cell.label ((graph.digests cell.label).getD digest) }

theorem encodings_noteEncoding (graph : Graph) (cell : Cell) (bytes : Bytes) (label : Label) :
    (graph.noteEncoding cell bytes).encodings label =
      if label = cell.label then some ((graph.encodings cell.label).getD bytes)
      else graph.encodings label :=
  Function.update_apply ..

theorem digests_noteDigest (graph : Graph) (cell : Cell) (digest : Digest) (label : Label) :
    (graph.noteDigest cell digest).digests label =
      if label = cell.label then some ((graph.digests cell.label).getD digest)
      else graph.digests label :=
  Function.update_apply ..

/-- What a user may do with a graph. -/
inductive Step : Graph → Graph → Prop
  | perform {graph : Graph} (operation : Operation)
    (arguments : ∀ item ∈ operation.arguments, item ∈ graph.session.items)
    (other : ∀ link found, operation ≠ .resolve link found) :
    Step graph (graph.perform operation)
  /-- Read a cell, and note as its encoding what was read. -/
  | decode {graph : Graph} {bytes : Bytes} {cell : Cell}
    (decoded : ((Cell.decode bytes).run.run graph.known).1 = .ok cell) :
    Step graph ((graph.perform (.decode bytes)).noteEncoding cell bytes)
  /-- Resolve a link. The cell that is given for it has been written to find its digest. -/
  | resolve {graph : Graph} {link : Link} (answer : Except Fault (Option Cell))
    (mem : link ∈ graph.links)
    (given : ∀ cell, answer = .ok (some cell) →
      cell ∈ graph.cells ∧ (graph.encodings cell.label).isSome) :
    Step graph (graph.resolve link answer).2
  | advance {graph : Graph} {link : Link} (status : Status) (mem : link ∈ graph.links) :
    Step graph (graph.withKnown (graph.known.advance link status))
  /-- Work out an encoding, and note it. -/
  | encode {graph : Graph} {cell : Cell} {bytes : Bytes} (mem : cell ∈ graph.cells)
    (emits : graph.Emits (.cell cell) bytes) :
    Step graph ((graph.withKnown (cell.encoding.run graph.known).2).noteEncoding cell bytes)
  /-- Work out a digest, and note it. -/
  | hash {graph : Graph} {cell : Cell} {digest : Digest} (mem : cell ∈ graph.cells)
    (hashes : graph.Hashes cell digest) :
    Step graph ((graph.withKnown (cell.hash.run graph.known).2).noteDigest cell digest)
  | compare {graph : Graph} (a b : Option Cell) :
    Step graph (graph.withKnown ((Cell.equalOption a b).run graph.known).2)

/-- The graphs that can come about. -/
def Reached (graph : Graph) : Prop := Relation.ReflTransGen Step {} graph

/-! ### What steps keep -/

/-- Every cell that a soft link has come to hold has been written before. -/
def Noted (graph : Graph) : Prop := ∀ (label : Label) (cell : Cell),
  graph.known.kept[label]? = some cell → (graph.encodings cell.label).isSome

/-- Direct links lead down in finitely many steps, and what a soft link holds has been written. -/
theorem Noted.grounded (h : graph.Noted) : graph.Grounded := by
  refine ⟨fun cell => ?_⟩
  induction cell using Cell.induct with
  | step label value ih =>
    refine ⟨_, fun target hbelow => ?_⟩
    obtain ⟨-, link, hlink, hresident⟩ := hbelow
    cases link with
    | direct label target => exact ih _ hlink _ hresident
    | soft label digest =>
      refine ⟨_, fun _ hbelow => ?_⟩
      have hnoted := h label target hresident
      rw [hbelow.1] at hnoted
      cases hnoted

/-- What holds of a graph at all times. -/
structure Inv (held : Set Link) (graph : Graph) : Prop extends graph.Faithful held where
  noted : graph.Noted

theorem Inv.start : Inv ∅ {} :=
  ⟨⟨Session.labelled_start nofun, nofun, nofun⟩, fun _ _ h => by simp at h⟩

/-- A change that notes nothing new. -/
theorem Inv.of_session (h : graph.Inv held) (hsub : held ⊆ held')
    (hsession : graph'.session.Labelled held') (hencodings : graph'.encodings = graph.encodings)
    (hdigests : graph'.digests = graph.digests)
    (hkept : graph'.known.kept = graph.known.kept) : graph'.Inv held' := by
  refine ⟨⟨hsession, ?_, ?_⟩, ?_⟩
  · rw [hencodings]
    intro label bytes hnoted
    obtain ⟨cell, hcell, heq⟩ := h.encodings label bytes hnoted
    exact ⟨cell, hcell.mono hsub, heq⟩
  · rw [hdigests]
    intro label digest hnoted
    obtain ⟨cell, hcell, heq⟩ := h.digests label digest hnoted
    exact ⟨cell, hcell.mono hsub, heq⟩
  · rw [Noted, hkept, hencodings]
    exact h.noted

theorem Inv.withKnown (h : graph.Inv held) {known : Knowledge}
    (hknown : CellGraph.Labelled held known) (hkept : known.kept = graph.known.kept) :
    (graph.withKnown known).Inv held :=
  h.of_session subset_rfl ⟨hknown, h.session.items, h.session.remembers⟩ rfl rfl hkept

theorem Inv.notes (h : graph.Inv held) {known : Knowledge} (hnotes : graph.known.Notes known) :
    (graph.withKnown known).Inv held :=
  h.withKnown (h.session.known.notes hnotes) hnotes.kept

theorem Inv.noteEncoding (h : graph.Inv held) (hcell : cell.Marked held) :
    (graph.noteEncoding cell cell.encode).Inv held := by
  have hsome : ∀ label, (graph.encodings label).isSome →
      ((graph.noteEncoding cell cell.encode).encodings label).isSome := by
    intro label hlabel
    rw [encodings_noteEncoding]
    split
    · rfl
    · exact hlabel
  refine ⟨⟨h.session, fun label bytes hnoted => ?_, h.digests⟩,
    fun label kept hkept => hsome _ (h.noted label kept hkept)⟩
  rw [encodings_noteEncoding] at hnoted
  split at hnoted
  · next heq =>
    refine ⟨cell, hcell, heq.symm, ?_⟩
    rw [← Option.some.inj hnoted]
    cases hbefore : graph.encodings cell.label with
    | none => rfl
    | some bytes => exact h.encodings_eq hcell hbefore
  · exact h.encodings label bytes hnoted

theorem Inv.noteDigest (h : graph.Inv held) (hcell : cell.Marked held) :
    (graph.noteDigest cell cell.digest).Inv held := by
  refine ⟨⟨h.session, h.encodings, fun label digest hnoted => ?_⟩, h.noted⟩
  rw [digests_noteDigest] at hnoted
  split at hnoted
  · next heq =>
    refine ⟨cell, hcell, heq.symm, ?_⟩
    rw [← Option.some.inj hnoted]
    cases hbefore : graph.digests cell.label with
    | none => rfl
    | some digest => exact h.digests_eq hcell hbefore
  · exact h.digests label digest hnoted

/-- What a link is given has been written, so it may be kept. -/
theorem Inv.resolve (h : graph.Inv held) (hlink : link ∈ held)
    {answer : Except Fault (Option Cell)} (hanswer : ∀ cell, answer = .ok (some cell) →
      cell.Marked held ∧ (graph.encodings cell.label).isSome) :
    (graph.resolve link answer).2.Inv held := by
  obtain ⟨herror, hok⟩ := link.run_resolve answer graph.known
  rw [Graph.resolve]
  rcases hrun : (link.resolve fun _ => liftM answer).run.run graph.known with
    ⟨fault | cell, known⟩ <;> rw [hrun] at herror hok <;> dsimp only at herror hok ⊢
  · have hnotes := herror fault rfl
    refine h.of_session subset_rfl ⟨h.session.known.notes hnotes, fun item hitem => ?_,
      h.session.remembers⟩ rfl rfl hnotes.kept
    rcases List.mem_append.1 hitem with hitem | hitem
    · exact h.session.items item hitem
    · cases hitem
  · have hitems : ∀ {cell : Cell}, cell.Marked held → ∀ item ∈ graph.session.items ++
        ((Except.ok cell : Except Fault Cell).toOption.toList.map Item.cell),
        Craft.labelled.Has held item := by
      intro cell hcell item hitem
      rcases List.mem_append.1 hitem with hitem | hitem
      · exact h.session.items item hitem
      · cases List.mem_singleton.1 hitem
        exact hcell
    rcases hok cell rfl with ⟨hresident, rfl⟩ | ⟨-, hgiven, hdigest, noted, hnotes, rfl⟩
    · exact h.of_session subset_rfl ⟨h.session.known,
        hitems (h.session.known.resident_marked hlink hresident), h.session.remembers⟩ rfl rfl rfl
    · obtain ⟨hcell, hwritten⟩ := hanswer cell hgiven
      have hnoted := h.session.known.notes hnotes
      cases hsmall : cell.isSmall with
      | true =>
        exact h.of_session subset_rfl ⟨hnoted.advance hlink _, hitems hcell, h.session.remembers⟩
          rfl rfl hnotes.kept
      | false =>
        refine ⟨⟨⟨(hnoted.keep hlink hcell hsmall hdigest).advance hlink _, hitems hcell,
          h.session.remembers⟩, h.encodings, h.digests⟩, fun label kept hkept => ?_⟩
        have hkept' : (noted.keep link cell).kept[label]? = some kept := hkept
        rw [Knowledge.kept_keep, hnotes.kept] at hkept'
        split at hkept'
        · cases hkept'
          exact hwritten
        · exact h.noted label kept hkept'

/-- A request other than to resolve a link lets no soft link hold a cell. -/
theorem kept_run {operation : Operation} {known : Knowledge} (h : Coherent Cell.Valid held known)
    (harguments : ∀ item ∈ operation.arguments, item.Within held)
    (hother : ∀ link found, operation ≠ .resolve link found) :
    (operation.run.run.run known).2.kept = known.kept := by
  have hkeeps : Craft.steady.law.Keeps held (fun _ => True) operation.run
      fun items held' _ => ∀ item ∈ items, Craft.steady.Has held' item :=
    Operation.keeps_run (fun link found heq => absurd heq (hother link found)) fun item hitem =>
      Craft.has_steady.2 (harguments item hitem)
  obtain ⟨_, _, _, hsteady, -⟩ := hkeeps known h trivial
  exact hsteady.2

theorem mem_items_perform {operation : Operation} {found : List Item} {item : Item}
    (h : (operation.run.run.run graph.known).1 = .ok found) (hitem : item ∈ found) :
    item ∈ (graph.perform operation).session.items := by
  show item ∈ graph.session.items ++ (operation.run.run.run graph.known).1.toOption.getD []
  rw [h]
  exact List.mem_append_right _ hitem

theorem Inv.perform (h : graph.Inv held) (operation : Operation)
    (harguments : ∀ item ∈ operation.arguments, item ∈ graph.session.items)
    (hother : ∀ link found, operation ≠ .resolve link found) :
    ∃ held', held ⊆ held' ∧ (graph.perform operation).Inv held' := by
  obtain ⟨held', hsub, hsession⟩ := h.session.perform (.cells operation) harguments
  have hkept := kept_run h.session.known.toCoherent
    (fun item hitem => Craft.Has.within (h.session.items item (harguments item hitem))) hother
  exact ⟨held', hsub, h.of_session hsub hsession rfl rfl hkept⟩

/-- Each step keeps what has been noted right. -/
theorem Step.inv (hstep : graph.Step graph') (h : graph.Inv held) :
    ∃ held', held ⊆ held' ∧ graph'.Inv held' := by
  cases hstep with
  | perform operation arguments other => exact h.perform operation arguments other
  | @decode bytes cell decoded =>
    obtain ⟨held', hsub, hinv⟩ := h.perform (.decode bytes) nofun nofun
    have hrun : ((Operation.decode bytes).run.run.run graph.known).1 = .ok [.cell cell] := by
      rw [Operation.run, run_run_bind]
      rcases hdecode : (Cell.decode bytes).run.run graph.known with ⟨outcome, known⟩
      rw [hdecode] at decoded
      cases decoded
      rfl
    have hcell : Item.cell cell ∈ (graph.perform (.decode bytes)).session.items :=
      mem_items_perform hrun (List.mem_singleton_self _)
    obtain rfl := (Cell.readFrom_of_decode decoded).1.encode
    exact ⟨held', hsub, hinv.noteEncoding (hinv.session.items _ hcell)⟩
  | resolve answer mem given =>
    refine ⟨held, subset_rfl, h.resolve (h.session.mem mem) fun cell hcell => ?_⟩
    obtain ⟨hmem, hnoted⟩ := given cell hcell
    exact ⟨h.session.marked hmem, hnoted⟩
  | advance status mem =>
    exact ⟨held, subset_rfl, h.withKnown (h.session.known.advance (h.session.mem mem) status) rfl⟩
  | @encode cell bytes mem emits =>
    have hcell := h.session.marked mem
    obtain rfl := h.eq_of_emits emits hcell
    exact ⟨held, subset_rfl, (h.notes (cell.onlyNotes_encoding _)).noteEncoding hcell⟩
  | @hash cell digest mem hashes =>
    have hcell := h.session.marked mem
    obtain rfl := (h.hashes_iff h.noted.grounded hcell).1 hashes
    exact ⟨held, subset_rfl, (h.notes (cell.onlyNotes_hash _)).noteDigest hcell⟩
  | compare a b =>
    exact ⟨held, subset_rfl, h.notes (Cell.onlyNotes_equalOption a b _)⟩

theorem Reached.inv (h : graph.Reached) : ∃ held, graph.Inv held := by
  induction h with
  | refl => exact ⟨∅, .start⟩
  | tail _ hstep ih =>
    obtain ⟨held, hinv⟩ := ih
    obtain ⟨held', -, hinv'⟩ := hstep.inv hinv
    exact ⟨held', hinv'⟩

/-! ### What steps lead to -/

/-- Steps only add to a graph. -/
theorem Step.grows (hstep : graph.Step graph') (h : graph.Inv held) :
    graph.session.Grows graph'.session := by
  have hknown : ∀ {known : Knowledge}, graph.known.Grows known →
      graph.session.Grows (graph.withKnown known).session :=
    fun hgrows => ⟨hgrows, nofun, fun _ hitem => hitem⟩
  have hperform : ∀ operation : Operation,
      (∀ item ∈ operation.arguments, item ∈ graph.session.items) →
      graph.session.Grows (graph.perform operation).session := by
    intro operation harguments
    obtain ⟨_, _, _, hmoves, -⟩ := Operation.keeps_run_valid (fun item hitem =>
      Craft.Has.within (h.session.items item (harguments item hitem))) graph.known
      h.session.known.toCoherent trivial
    exact ⟨hmoves.learns.toGrows, nofun, fun _ hitem => Session.mem_items_perform hitem _⟩
  cases hstep with
  | perform operation arguments _ => exact hperform operation arguments
  | @decode bytes _ _ => exact hperform (.decode bytes) nofun
  | @resolve link answer _ _ =>
    exact ⟨link.grows_resolve answer graph.known, nofun, fun _ => List.mem_append_left _⟩
  | @advance link status _ => exact hknown (.advance graph.known link status)
  | @encode cell _ _ _ => exact hknown (cell.onlyNotes_encoding graph.known).learns.toGrows
  | @hash cell _ _ _ => exact hknown (cell.onlyNotes_hash graph.known).learns.toGrows
  | compare a b => exact hknown (Cell.onlyNotes_equalOption a b graph.known).learns.toGrows

theorem Reached.grows (h : graph.Reached) (hsteps : Relation.ReflTransGen Step graph graph') :
    graph.session.Grows graph'.session := by
  induction hsteps with
  | refl => exact ⟨.refl _, nofun, fun _ hitem => hitem⟩
  | @tail b c hsteps hstep ih =>
    obtain ⟨held, hinv⟩ := Reached.inv (h.trans hsteps)
    have hgrows := hstep.grows hinv
    exact ⟨ih.known.trans hgrows.known, nofun,
      fun item hitem => hgrows.items item (ih.items item hitem)⟩

/--
A cell of the graph is written, and its digest found, in one way at a time: that in which it is
always written. With nothing noted this is so as well, if writing comes to an end at all.
-/
structure Writes (graph : Graph) (cell : Cell) : Prop where
  encoding : (cell.encoding.run graph.known).1 = cell.encode
  hash : (cell.hash.run graph.known).1 = cell.digest
  emits_iff : ∀ bytes, graph.Emits (.cell cell) bytes ↔ bytes = cell.encode
  hashes_iff : ∀ digest, graph.Hashes cell digest ↔ digest = cell.digest
  forget_emits : ∀ bytes, graph.forget.Emits (.cell cell) bytes → bytes = cell.encode
  forget_hashes : ∀ digest, graph.forget.Hashes cell digest → digest = cell.digest
  forget_grounded : graph.forget.Grounded → graph.forget.Emits (.cell cell) cell.encode

theorem Reached.writes (h : graph.Reached) (hcell : cell ∈ graph.cells) : graph.Writes cell := by
  obtain ⟨held, hinv⟩ := h.inv
  have hmarked := hinv.session.marked hcell
  have hforget := hinv.toFaithful.forget
  have hgrounded := hinv.noted.grounded
  refine ⟨cell.fst_encoding _, cell.fst_hash _, fun bytes => ⟨?_, ?_⟩,
    fun digest => hinv.hashes_iff hgrounded hmarked, fun bytes hemits => ?_, ?_,
    fun hgrounded => ?_⟩
  · exact fun hemits => hinv.eq_of_emits hemits hmarked
  · rintro rfl
    exact hinv.emits hgrounded hmarked
  · exact hforget.eq_of_emits hemits hmarked
  · rintro digest (hnoted | ⟨bytes, hemits, rfl⟩)
    · cases hnoted
    · rw [hforget.eq_of_emits hemits hmarked]
      rfl
  · exact hforget.emits hgrounded hmarked

/-- What becomes of a link that is resolved, whatever is answered. -/
structure Resolves (graph : Graph) (link : Link) (answer : Except Fault (Option Cell)) : Prop where
  digest : ∀ cell, (graph.resolve link answer).1 = .ok cell → cell.digest = link.digest
  verified : ∀ cell, (graph.resolve link answer).1 = .ok cell → graph.known.resident link = none →
    .verified ≤ (graph.resolve link answer).2.known.status link
  resident_eq : ∀ fault, (graph.resolve link answer).1 = .error fault →
    (graph.resolve link answer).2.known.resident link = graph.known.resident link
  status_eq : ∀ fault, (graph.resolve link answer).1 = .error fault →
    (graph.resolve link answer).2.known.status link = graph.known.status link

theorem Inv.resolves (h : graph.Inv held) (hlink : link ∈ held)
    (answer : Except Fault (Option Cell)) : graph.Resolves link answer := by
  obtain ⟨herror, hok⟩ := link.run_resolve answer graph.known
  refine ⟨fun cell hcell => ?_, fun cell hcell hnone => ?_, fun fault hfault => ?_,
    fun fault hfault => ?_⟩
  · rcases hok cell hcell with ⟨hresident, -⟩ | ⟨-, -, hdigest, -⟩
    · exact h.session.known.digest link hlink cell hresident
    · exact hdigest
  · rcases hok cell hcell with ⟨hresident, -⟩ | ⟨-, -, -, noted, -, heq⟩
    · rw [hresident] at hnone
      cases hnone
    · show .verified ≤ ((link.resolve fun _ => liftM answer).run.run graph.known).2.status link
      rw [heq, Knowledge.status_advance, if_pos rfl, Status.max_eq]
      exact le_max_right _ _
  · exact congrFun (herror fault hfault).resident_eq link
  · exact congrArg (·.getD link.label .unknown) (herror fault hfault).statuses

/--
Resolving never changes a value. However links have been resolved, with whatever answers, between
other requests, the cells of a graph are written, and named by digest, as they always are. A soft
link holds only large cells of its digest; a link that is resolved gives a cell of its digest and is
verified then, or stays as it was; and no cell is lost and no status falls from there on.
-/
theorem resolving_keeps_values (h : graph.Reached) :
    (∀ cell ∈ graph.cells, graph.Writes cell) ∧
    (∀ label digest target, .soft label digest ∈ graph.links →
      graph.known.resident (.soft label digest) = some target →
      target.digest = digest ∧ maxEmbedded < target.encode.length) ∧
    (∀ link ∈ graph.links, ∀ answer, graph.Resolves link answer) ∧
    ∀ later, Relation.ReflTransGen Step graph later →
      graph.cells ⊆ later.cells ∧ (∀ cell ∈ graph.cells, later.Writes cell) ∧
      ∀ link, graph.known.status link ≤ later.known.status link := by
  obtain ⟨held, hinv⟩ := h.inv
  refine ⟨fun cell => h.writes, fun label digest target hlink hresident => ?_,
    fun link hlink => hinv.resolves (hinv.session.mem hlink), fun later hsteps => ?_⟩
  · exact ⟨hinv.session.known.digest _ (hinv.session.mem hlink) target hresident,
      hinv.large hresident⟩
  · have hgrows := h.grows hsteps
    refine ⟨hgrows.cells, fun cell hcell => ?_, fun link => hgrows.known.status link.label⟩
    exact Reached.writes (h.trans hsteps) (hgrows.cells hcell)

/-! ### A soft link that is given a wrong cell, and then its target -/

/-- A vector that names the blob by its digest. -/
def namingCell : Cell := .mk 2 (.vector [.soft 1 largeBlob.digest])

/-- The blob and the vector have been made. -/
def unresolved : Graph :=
  ((({} : Graph).perform (.blob (List.replicate 200 1))).perform
    (.soft largeBlob.digest)).perform (.vectorOf [.soft 1 largeBlob.digest])

/-- Both have been written. -/
def bothWritten : Graph :=
  let first := (unresolved.withKnown (largeBlob.encoding.run unresolved.known).2).noteEncoding
    largeBlob largeBlob.encode
  (first.withKnown (namingCell.encoding.run first.known).2).noteEncoding namingCell
    namingCell.encode

/-- The link has been answered with the vector, and then with the blob. -/
def answeredTwice : Graph :=
  ((bothWritten.resolve (.soft 1 largeBlob.digest) (.ok (some namingCell))).2.resolve
    (.soft 1 largeBlob.digest) (.ok (some largeBlob))).2

theorem reached_bothWritten : bothWritten.Reached := by
  have hunresolved : unresolved.Reached := by
    refine .tail (.tail (.tail .refl (.perform (.blob _) nofun nofun))
      (.perform (.soft _) nofun nofun)) (.perform (.vectorOf _) ?_ nofun)
    intro item hitem
    rw [List.mem_singleton.1 hitem]
    exact List.mem_cons_of_mem _ (List.mem_cons_self ..)
  have hblob : largeBlob ∈ unresolved.cells := .inl (List.mem_cons_self ..)
  have hfirst := hunresolved.tail (.encode hblob ((hunresolved.writes hblob).emits_iff _ |>.2 rfl))
  have hnaming : namingCell ∈ cells ((unresolved.withKnown
      (largeBlob.encoding.run unresolved.known).2).noteEncoding largeBlob largeBlob.encode) :=
    .inl (List.mem_cons_of_mem _ (List.mem_cons_of_mem _ (List.mem_cons_self ..)))
  exact hfirst.tail (.encode hnaming ((Reached.writes hfirst hnaming).emits_iff _ |>.2 rfl))

theorem reached_answeredTwice : answeredTwice.Reached := by
  have hlink : Link.soft 1 largeBlob.digest ∈ bothWritten.links :=
    .inl ⟨_, List.mem_cons_of_mem _ (List.mem_cons_self ..), Link.self_mem_everyLink _⟩
  have hnaming : namingCell ∈ bothWritten.cells :=
    .inl (List.mem_cons_of_mem _ (List.mem_cons_of_mem _ (List.mem_cons_self ..)))
  have hblob : largeBlob ∈ bothWritten.cells := .inl (List.mem_cons_self ..)
  have hfirst : Step bothWritten _ := .resolve (.ok (some namingCell)) hlink (by
    rintro _ ⟨⟩
    exact ⟨hnaming, rfl⟩)
  have hgrows := Reached.grows reached_bothWritten (.single hfirst)
  have hwritten : (bothWritten.encodings largeBlob.label).isSome := rfl
  refine (reached_bothWritten.tail hfirst).tail (.resolve _ (hgrows.links hlink) ?_)
  rintro _ ⟨⟩
  exact ⟨hgrows.cells hblob, hwritten⟩

set_option maxRecDepth 20000 in
/-- The vector is refused and the blob is kept, and the vector is written as it was before. -/
theorem answeredTwice_keeps :
    (bothWritten.resolve (.soft 1 largeBlob.digest) (.ok (some namingCell))).1.toOption.isNone ∧
      (answeredTwice.known.resident (.soft 1 largeBlob.digest)).isSome ∧
      answeredTwice.known.status (.soft 1 largeBlob.digest) = .verified ∧
      answeredTwice.Writes namingCell := by
  have hnaming : namingCell ∈ answeredTwice.cells :=
    .inl (List.mem_cons_of_mem _ (List.mem_cons_of_mem _ (List.mem_cons_self ..)))
  exact ⟨by decide +kernel, by decide +kernel, by decide +kernel,
    (resolving_keeps_values reached_answeredTwice).1 namingCell hnaming⟩

end Graph

end CellGraph
