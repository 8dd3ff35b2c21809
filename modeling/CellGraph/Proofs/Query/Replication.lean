import CellGraph.Proofs.Session.Chronicle
import CellGraph.Proofs.Stake.Replica

/-!
# Questions to copies of which less is held

Whatever is asked of a map or a record, a copy of which less is held does not answer differently: it
lacks a cell, or gives the same answer, as far as answers can be told apart by their encodings. The
same holds of changed maps and of updated records, which are answers as well.

* `Finding`, `Finding.Agrees`: answers, and when they are the same;
* `MapQuestion`, `RecordQuestion`: what can be asked, changes included;
* `MapQuestion.echoes_ask`, `RecordQuestion.echoes_ask`: one question to two copies;
* `Chronicle.Reached.replicating`: all questions to a cell of a chronicle, and to a copy.
-/

namespace CellGraph

open Attempt

/-- An answer. -/
inductive Finding
  | count (n : Nat)
  | number (n : Int64)
  | text (s : Option String)
  | cell (cell : Option Cell)
  | pairs (pairs : List (Cell × Cell))
  | record (record : StakeRecord Link)

/-- Two answers are the same, cells and records having the same encodings. -/
inductive Finding.Agrees : Finding → Finding → Prop
  | count (n : Nat) : Agrees (.count n) (.count n)
  | number (n : Int64) : Agrees (.number n) (.number n)
  | text (s : Option String) : Agrees (.text s) (.text s)
  | cell {cell cell' : Option Cell} (encode : cell'.map Cell.encode = cell.map Cell.encode) :
    Agrees (.cell cell) (.cell cell')
  | pairs {pairs pairs' : List (Cell × Cell)}
    (encode : pairs'.map (Prod.map Cell.encode Cell.encode) =
      pairs.map (Prod.map Cell.encode Cell.encode)) : Agrees (.pairs pairs) (.pairs pairs')
  | record {record record' : StakeRecord Link}
    (encode : ∀ label label', Cell.encode (.mk label' (.peer record')) =
      Cell.encode (.mk label (.peer record))) : Agrees (.record record) (.record record')

/-- What can be asked of a map. -/
inductive MapQuestion
  | size
  | find (key : Cell)
  | pairs
  /-- What is the map with the key bound to the value? -/
  | insert (key value : Cell)
  /-- What is the map without the key? -/
  | erase (key : Cell)

/-- Ask a question of a cell, which should be a map. -/
def MapQuestion.ask (cell : Cell) : MapQuestion → Attempt Finding
  | size => return .count (← cell.size)
  | find key => return .cell (← cell.find? key)
  | pairs => return .pairs (← cell.toPairs)
  | insert key value => return .cell (some (← cell.insert key value))
  | erase key => return .cell (some (← cell.erase key))

/-- What can be asked of a record. -/
inductive RecordQuestion
  | shares (delegator : Address)
  | worth (delegator : Address)
  | stakes
  | metadata
  | hostname
  | field (name : String)
  /-- What is the record after the update? -/
  | update (change : StakeUpdate)

/-- Ask a question of a record. -/
def RecordQuestion.ask (record : StakeRecord Link) : RecordQuestion → Attempt Finding
  | shares delegator => return .number (← record.sharesOf delegator)
  | worth delegator => return .number (← record.valueOf delegator)
  | stakes => return .cell (← Link.loadOption record.stakes)
  | metadata => return .cell (← Link.loadOption record.metadata)
  | hostname => return .text (← record.hostname)
  | field name => return .cell (← record.field? name)
  | update change => return .record (← change.apply record)

variable {known known' : Knowledge} {cell cell' : Cell} {record record' : StakeRecord Link}

namespace Finding.Agrees

/-- Optional cells agree if they have the same encodings. -/
theorem of_rel {cell cell' : Option Cell}
    (h : Option.Rel (fun cell cell' => cell'.encode = cell.encode) cell cell') :
    Agrees (.cell cell) (.cell cell') := by
  cases h with
  | some h => exact .cell (congrArg some h)
  | none => exact .cell rfl

theorem of_completes {cell cell' : Option Cell}
    (h : Option.Rel (Cell.Completes known known') cell cell') :
    Agrees (.cell cell) (.cell cell') := by
  cases h with
  | some h => exact .cell (congrArg some h.encode_eq)
  | none => exact .cell rfl

/-- Cells agree if their values are written alike. -/
theorem of_alike {cell cell' : Cell}
    (h : cell.value.Alike (fun link link' => link'.written = link.written) cell'.value) :
    Agrees (.cell (some cell)) (.cell (some cell')) :=
  .cell (congrArg some (Cell.encode_eq_of_alike h fun _ _ heq => heq))

theorem of_twins (h : record.Twins record') : Agrees (.record record) (.record record') :=
  .record fun label label' => by
    rw [Cell.encode_mk, Cell.encode_mk]
    exact congrArg (fun record => Value.write (.peer record)) h

end Finding.Agrees

/-- A question to a map of which less is held. -/
theorem MapQuestion.echoes_ask (h : cell.Completes known known' cell') (question : MapQuestion) :
    Echoes known known' (question.ask cell) (question.ask cell') Finding.Agrees := by
  have hwritten : ∀ {link link' : Link}, Link.CompletesAll known known' link link' →
      link'.written = link.written := Link.Completes.written_eq
  have hdigest : ∀ link link' : Link, link'.written = link.written → link'.digest = link.digest :=
    fun _ _ heq => (Link.twins heq).digest_eq
  have htarget : ∀ (target : Cell) (link link' : Link), link.target? = some target →
      link'.target? = some target → link'.written = link.written := by
    intro target link link' htarget htarget'
    cases link with
    | soft => cases htarget
    | direct =>
      cases link' with
      | soft => cases htarget'
      | direct =>
        cases htarget
        cases htarget'
        rfl
  cases question with
  | size =>
    refine (Echoes.ofExcept h.agree_size).bind ?_
    rintro n _ rfl
    exact .pure (.count n)
  | find key => exact (h.echoes_find rfl).bind fun _ _ hfound => .pure (.of_completes hfound)
  | pairs =>
    refine h.echoes_toPairs.bind fun pairs pairs' hpairs => .pure (.pairs ?_)
    induction hpairs with
    | nil => rfl
    | cons hpair _ ih =>
      rw [List.map_cons, List.map_cons, ih]
      exact congrArg (· :: _) (Prod.ext hpair.1.encode_eq hpair.2.encode_eq)
  | insert key value =>
    refine (h.echoes_insert key value key value).bind fun result result' hresult => .pure ?_
    exact .of_alike (hresult.1.alike h hwritten hdigest hresult.2 (htarget key) (htarget value))
  | erase key =>
    refine (h.echoes_erase rfl).bind fun result result' hresult => .pure ?_
    exact .of_alike (hresult.1.alike h hwritten hdigest hresult.2 rfl)

/-- A record in a cell of which more is held. -/
theorem Cell.Completes.exists_record (h : cell.Completes known known' cell')
    (hvalue : cell.value = .peer record) :
    ∃ record', cell'.value = .peer record' ∧ StakeRecord.Completes known known' record record' := by
  obtain ⟨pairs, hpairs, hpairs', hrelated⟩ := h.alike
  rw [hvalue] at hpairs
  cases pairs with
  | peer pairs =>
    cases hpairs
    have hrel : ∀ pair : Option (Link × Link), (∀ p ∈ pair, p ∈ pairs.links) →
        Option.Rel (Link.CompletesAll known known') (pair.map Prod.fst) (pair.map Prod.snd) := by
      rintro (_ | p) hmem
      · exact .none
      · exact .some (hrelated p (hmem p rfl))
    refine ⟨_, hpairs', rfl, rfl, hrel _ fun p hp => ?_, rfl, hrel _ fun p hp => ?_, rfl, rfl⟩
    · exact List.mem_append_left _ (Option.mem_toList.2 hp)
    · exact List.mem_append_right _ (Option.mem_toList.2 hp)
  | _ => cases hpairs

/-- A question to a record of which less is held. -/
theorem RecordQuestion.echoes_ask (h : StakeRecord.Completes known known' record record')
    (hvalid : record.validate known.resident = .ok ())
    (hascending : ∀ entries, StakeRecord.Lists known.resident record.stakes entries →
      Entry.Ascending entries) (question : RecordQuestion) :
    Echoes known known' (question.ask record) (question.ask record') Finding.Agrees := by
  cases question with
  | shares delegator =>
    refine (h.echoes_sharesOf delegator).bind ?_
    rintro n _ ⟨rfl, -⟩
    exact .pure (.number _)
  | worth delegator =>
    refine (h.echoes_valueOf delegator).bind ?_
    rintro n _ rfl
    exact .pure (.number n)
  | stakes =>
    exact (Link.Completes.echoes_loadOption h.stakes).bind fun _ _ hfound =>
      .pure (.of_completes hfound.2)
  | metadata =>
    exact (Link.Completes.echoes_loadOption h.metadata).bind fun _ _ hfound =>
      .pure (.of_completes hfound.2)
  | hostname =>
    refine h.echoes_hostname.bind ?_
    rintro name _ rfl
    exact .pure (.text name)
  | field name => exact (h.echoes_field? name).bind fun _ _ hfound => .pure (.of_rel hfound)
  | update change =>
    exact (h.echoes_apply hvalid hascending change).bind fun _ _ htwins => .pure (.of_twins htwins)

namespace Chronicle

variable {ι : Type} [DecidableEq ι] {chronicle : Chronicle ι}

omit [DecidableEq ι] in
/-- The entries of a map of delegators that is held are in order. -/
theorem Inv.ascending (h : chronicle.Inv) (hcell : cell ∈ chronicle.session.cells)
    (hvalue : cell.value = .peer record) {entries : List Entry}
    (hlists : StakeRecord.Lists chronicle.session.known.resident record.stakes entries) :
    Entry.Ascending entries := by
  rcases hstakes : record.stakes with _ | link <;> rw [hstakes] at hlists
  · cases hlists
    exact .nil
  · rcases hlists with _ | ⟨held, hmap⟩
    have hlink : link ∈ cell.links := by
      rw [Cell.links, hvalue]
      exact List.mem_append_left _ (Option.mem_toList.2 hstakes)
    have hwithin := h.usable.coherent.resident
      ((h.usable.valid hcell).links link (Cell.mem_everyLink_of_mem hlink)) held
    exact (Craft.entries_of_within hwithin (by rw [Cell.entries?, hmap])).1

/--
All answers to questions are the same on a copy of which less is held, unless that lacks a cell: for
each cell of a chronicle, which is valid if it is a record, and for each copy.
-/
theorem Reached.replicating (h : chronicle.Reached) (hcell : cell ∈ chronicle.session.cells)
    (hvalid : ∀ record, cell.value = .peer record →
      cell.value.validate chronicle.session.known.resident = .ok ())
    (hcompletes : cell.Completes chronicle.session.known known' cell') :
    cell'.encode = cell.encode ∧
    (∀ question : MapQuestion, Echo Finding.Agrees
      ((question.ask cell).run.run chronicle.session.known).1
      ((question.ask cell').run.run known').1) ∧
    ∀ record, cell.value = .peer record → ∃ record', cell'.value = .peer record' ∧
      ∀ question : RecordQuestion, Echo Finding.Agrees
        ((question.ask record).run.run chronicle.session.known).1
        ((question.ask record').run.run known').1 := by
  refine ⟨hcompletes.encode_eq, fun question => (question.echoes_ask hcompletes).outcome,
    fun record hvalue => ?_⟩
  obtain ⟨record', hvalue', hrecord⟩ := hcompletes.exists_record hvalue
  refine ⟨record', hvalue', fun question => (question.echoes_ask hrecord ?_ ?_).outcome⟩
  · have hchecked := hvalid record hvalue
    rw [hvalue, Value.validate] at hchecked
    split at hchecked
    · cases hchecked
    · exact hchecked
  · exact fun entries hlists => h.inv.ascending hcell hvalue hlists

/-! ### A record that lacks its metadata -/

/-- The cell at this place among the items of a session. -/
def cellAt (session : Session ι) (place : Nat) : Option Cell :=
  match session.items[place]? with
  | some (.cell cell) => some cell
  | _ => none

/-- The link at this place among the items of a session. -/
def linkAt (session : Session ι) (place : Nat) : Option Link :=
  match session.items[place]? with
  | some (.link link) => some link
  | _ => none

omit [DecidableEq ι] in
theorem mem_items_of_cellAt {session : Session ι} {place : Nat}
    (h : cellAt session place = some cell) : .cell cell ∈ session.items := by
  unfold cellAt at h
  split at h
  · next hitem =>
    cases h
    exact List.mem_of_getElem? hitem
  · cases h

omit [DecidableEq ι] in
theorem mem_items_of_linkAt {session : Session ι} {place : Nat} {link : Link}
    (h : linkAt session place = some link) : .link link ∈ session.items := by
  unfold linkAt at h
  split at h
  · next hitem =>
    cases h
    exact List.mem_of_getElem? hitem
  · cases h

/-- Metadata that are too large to be inline. -/
def metadataMap : Cell :=
  .mk 4 (.map [(.direct 2 (.mk 0 (.integer 1)), .direct 3 (.mk 1 (.blob (List.replicate 136 7))))])

/-- A record with these metadata, by digest. -/
def distantRecord : StakeRecord Link where
  controller := ⟨1⟩
  peerShares := 100
  stakes := none
  delegatedShares := 0
  metadata := some (.soft 0 metadataMap.digest)
  timestamp := 0
  balance := 100

/-- The metadata are made, and the record is read. -/
def readingOperations : List Operation :=
  [.integer 1, .blob (List.replicate 136 7),
    .map [(.mk 0 (.integer 1), .mk 1 (.blob (List.replicate 136 7)))],
    .decode (Cell.encode (.mk 0 (.peer distantRecord)))]

def readSession : Session Unit :=
  (readingOperations.map Request.cells).foldl Session.perform { stores := fun _ => .emptyTable }

/-- The metadata that have been made. -/
def metadataCell : Cell := (cellAt readSession 2).getD metadataMap

/-- The cell that has been read. -/
def recordCell : Cell := (cellAt readSession 3).getD metadataMap

def namedSession : Session Unit := readSession.perform (.cells (.child recordCell 0))

/-- Its link to the metadata. -/
def metadataLink : Link := (linkAt namedSession 4).getD (.direct 0 metadataMap)

/-- A user who has the record, and has resolved the link. -/
def loadedRecord : Chronicle Unit where
  session := namedSession.perform (.cells (.resolve metadataLink (some metadataCell)))

/-- What comes of a question to the record, where this much is known. -/
def answer (known : Knowledge) (question : RecordQuestion) : Except Fault Finding :=
  match recordCell.value with
  | .peer record => ((question.ask record).run.run known).1
  | _ => .error (.missingData metadataMap.digest)

set_option maxRecDepth 20000 in
/-- What there is of the record, with its metadata and without. -/
theorem loadedRecord_evaluated :
    (Session.FitsThroughout [()] { stores := fun _ => .emptyTable }
        (readingOperations.map Request.cells) ∧
      (∀ cell ∈ namedSession.everyCell [()], cell.value.Fits) ∧
      ∀ cell ∈ loadedRecord.session.everyCell [()], cell.value.Fits) ∧
    ((cellAt readSession 2).isSome ∧ (cellAt readSession 3).isSome ∧
      (linkAt namedSession 4).isSome) ∧
    recordCell.value.kind = .peer ∧
    (recordCell.value.validate loadedRecord.session.known.resident).isOk ∧
    (answer loadedRecord.session.known .metadata).isOk ∧
    (answer {} .metadata).isOk = false ∧ (answer {} (.update (.reward 10))).isOk := by
  decide +kernel

theorem mem_metadataCell : .cell metadataCell ∈ readSession.items := by
  obtain ⟨-, ⟨hmap, -⟩, -⟩ := loadedRecord_evaluated
  obtain ⟨cell, hmap⟩ := Option.isSome_iff_exists.1 hmap
  rw [metadataCell, hmap]
  exact mem_items_of_cellAt hmap

theorem mem_recordCell : .cell recordCell ∈ readSession.items := by
  obtain ⟨-, ⟨-, hcell, -⟩, -⟩ := loadedRecord_evaluated
  obtain ⟨cell, hcell⟩ := Option.isSome_iff_exists.1 hcell
  rw [recordCell, hcell]
  exact mem_items_of_cellAt hcell

theorem mem_metadataLink : .link metadataLink ∈ namedSession.items := by
  obtain ⟨-, ⟨-, -, hlink⟩, -⟩ := loadedRecord_evaluated
  obtain ⟨link, hlink⟩ := Option.isSome_iff_exists.1 hlink
  rw [metadataLink, hlink]
  exact mem_items_of_linkAt hlink

set_option maxRecDepth 20000 in
theorem reached_readSession : Reached { session := readSession } :=
  (reached_start fun _ => .inr rfl).operations Session.mem_unit readingOperations
    loadedRecord_evaluated.1.1
    ⟨nofun, nofun, Session.mem_items_of_places [0, 1] rfl, nofun, trivial⟩

set_option maxRecDepth 20000 in
theorem reached_namedSession : Reached { session := namedSession } := by
  have hcell : ∀ item ∈ (Operation.child recordCell 0).arguments, item ∈ readSession.items :=
    List.forall_mem_singleton.2 mem_recordCell
  exact reached_readSession.cells hcell
    (Session.fits_of_everyCell Session.mem_unit loadedRecord_evaluated.1.2.1)

set_option maxRecDepth 20000 in
theorem step_loadedRecord : Step { session := namedSession } loadedRecord := by
  have harguments : ∀ item ∈ (Operation.resolve metadataLink (some metadataCell)).arguments,
      item ∈ namedSession.items :=
    List.forall_mem_cons.2 ⟨mem_metadataLink,
      List.forall_mem_singleton.2 (Session.mem_items_perform mem_metadataCell _)⟩
  exact .cells _ harguments
    (Session.fits_of_everyCell Session.mem_unit loadedRecord_evaluated.1.2.2)

theorem reached_loadedRecord : loadedRecord.Reached := by
  obtain ⟨stores, hempty, hsteps⟩ := reached_namedSession
  exact ⟨stores, hempty, hsteps.tail step_loadedRecord⟩

theorem recordCell_mem_named : .cell recordCell ∈ namedSession.items :=
  Session.mem_items_perform mem_recordCell _

set_option maxRecDepth 20000 in
theorem recordCell_mem_cells : recordCell ∈ loadedRecord.session.cells :=
  .inl (Session.mem_items_perform recordCell_mem_named _)

set_option maxRecDepth 20000 in
/--
With its metadata the record gives them; without, it has none to give, but lacks a cell. A reward is
added in both cases, and gives the same record.
-/
theorem recordCell_replicated :
    (answer loadedRecord.session.known .metadata).isOk ∧
      (∃ digest, answer {} .metadata = .error (.missingData digest)) ∧
      ∃ finding finding', answer loadedRecord.session.known (.update (.reward 10)) = .ok finding ∧
        answer {} (.update (.reward 10)) = .ok finding' ∧ finding.Agrees finding' := by
  obtain ⟨-, -, hkind, hvalid, hgiven, hlacking, hupdated⟩ := loadedRecord_evaluated
  have hnamed : .cell recordCell ∈ namedSession.items := Session.mem_items_perform mem_recordCell _
  have hcell : recordCell ∈ loadedRecord.session.cells := .inl (Session.mem_items_perform hnamed _)
  have hcompletes : recordCell.Completes loadedRecord.session.known {} recordCell :=
    .of_le (fun _ _ hkept => by simp at hkept) _
  obtain ⟨record, hvalue⟩ : ∃ record, recordCell.value = .peer record := by
    cases hvalue : recordCell.value <;> rw [hvalue] at hkind <;> cases hkind
    exact ⟨_, rfl⟩
  have hchecked : recordCell.value.validate loadedRecord.session.known.resident = .ok () := by
    cases hcheck : recordCell.value.validate loadedRecord.session.known.resident with
    | ok => rfl
    | error => rw [hcheck] at hvalid; cases hvalid
  obtain ⟨-, -, hrecord⟩ :=
    reached_loadedRecord.replicating hcell (fun _ _ => hchecked) hcompletes
  obtain ⟨record', hvalue', hechoes⟩ := hrecord record hvalue
  cases hvalue.symm.trans hvalue'
  have hanswer : ∀ known question,
      answer known question = ((RecordQuestion.ask record question).run.run known).1 :=
    fun known question => by rw [answer, hvalue]
  simp only [← hanswer] at hechoes
  exact ⟨hgiven, (hechoes .metadata).lacking hgiven hlacking,
    (hechoes (.update (.reward 10))).of_isOk hupdated⟩

end Chronicle

end CellGraph
