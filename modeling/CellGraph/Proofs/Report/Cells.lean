import CellGraph.Proofs.Cell.Equality
import CellGraph.Proofs.Cell.FiniteMap

/-!
# Reports as cells

A report becomes a map from the names of its fields to cells. A field that is missing is left out,
and the entries stand in the order of their keys' digests, so it is not obvious from the map which
report it was. Still it tells all of the report but its log: each field is found under its name, and
the maps of two reports are equal only if all fields are.

* `Report.Binds`: the bindings of the fields that are there;
* `Report.Made`: a cell that has been made of a report, with `Report.endsWhere_toCell`;
* `Report.Made.answer`, `Report.Made.digest_eq`, `Report.Made.encode_eq`: its fields, and how they
  determine it;
* `Report.Gives`: what a map gives for the fields of a report;
* `Session.Reached.reporting`: reports can be told by their cells.
-/

namespace CellGraph

open Attempt

/-! ### Keywords -/

/-- The digest of the keyword of this name. -/
def Digest.ofKeyword (name : String) : Digest := Cell.digest (.mk 0 (.keyword name))

theorem Cell.digest_of_keyword {key : Cell} {name : String} (h : key.value = .keyword name) :
    key.digest = Digest.ofKeyword name :=
  congrArg Digest.of ((encode_of_value h).trans (encode_mk 0 (.keyword name)).symm)

theorem Cell.encode_eq_of_leaf {a b : Cell} (h : a.value = b.value) : a.encode = b.encode := by
  rw [encode_of_value h, encode_of_value rfl]

namespace Report

/-! ### Bindings of fields -/

/-- A field of a report: its name, and the cell that it is turned into. -/
abbrev Field := String × Option Cell

/-- These are the bindings of the fields that are there, each under the keyword of its name. -/
inductive Binds : List Field → List (Cell × Cell) → Prop
  | nil : Binds [] []
  | skip {name : String} {fields : List Field} {bindings : List (Cell × Cell)}
    (h : Binds fields bindings) : Binds ((name, none) :: fields) bindings
  | bind {name : String} {fields : List Field} {bindings : List (Cell × Cell)} {key cell : Cell}
    (hkey : key.value = .keyword name) (h : Binds fields bindings) :
    Binds ((name, some cell) :: fields) ((key, cell) :: bindings)

namespace Binds

variable {fields others : List Field} {bindings more : List (Cell × Cell)}

theorem append (h : Binds fields bindings) (h' : Binds others more) :
    Binds (fields ++ others) (bindings ++ more) := by
  induction h with
  | nil => exact h'
  | skip _ ih => exact .skip ih
  | bind hkey _ ih => exact .bind hkey ih

/-- A key is the keyword of a name. -/
theorem digest_mem (h : Binds fields bindings) :
    ∀ binding ∈ bindings, binding.1.digest ∈ fields.map fun field => Digest.ofKeyword field.1 := by
  induction h with
  | nil => simp
  | skip _ ih => exact fun binding hbinding => List.mem_cons_of_mem _ (ih binding hbinding)
  | bind hkey _ ih =>
    rintro binding (_ | ⟨_, hbinding⟩)
    · simp [Cell.digest_of_keyword hkey]
    · exact List.mem_cons_of_mem _ (ih binding hbinding)

/-- If names have different digests, what is bound last under a name is the field of this name. -/
theorem find? (h : Binds fields bindings)
    (hnodup : (fields.map fun field => Digest.ofKeyword field.1).Nodup) {name : String}
    {field : Option Cell} (hmem : (name, field) ∈ fields) :
    (bindings.reverse.find? fun binding => binding.1.digest = Digest.ofKeyword name).map Prod.snd =
      field := by
  -- Under the name of the first field, nothing is found among the bindings of the others.
  have hnone : ∀ {fields : List Field} {bindings : List (Cell × Cell)} {name : String},
      Binds fields bindings →
      Digest.ofKeyword name ∉ fields.map (fun field => Digest.ofKeyword field.1) →
      bindings.reverse.find? (fun binding => binding.1.digest = Digest.ofKeyword name) = none := by
    intro fields bindings name h hnot
    apply List.find?_eq_none.2
    intro binding hbinding heq
    apply hnot
    rw [← of_decide_eq_true heq]
    exact h.digest_mem binding (List.mem_reverse.1 hbinding)
  induction h with
  | nil => cases hmem
  | skip h ih =>
    obtain ⟨hnot, hnodup⟩ := List.nodup_cons.1 hnodup
    rcases List.mem_cons.1 hmem with heq | hmem
    · cases heq
      rw [hnone h hnot]
      rfl
    · exact ih hnodup hmem
  | @bind other _ _ _ _ hkey h ih =>
    obtain ⟨hnot, hnodup⟩ := List.nodup_cons.1 hnodup
    rw [List.reverse_cons, List.find?_append]
    rcases List.mem_cons.1 hmem with heq | hmem
    · cases heq
      rw [hnone h hnot]
      simp [Cell.digest_of_keyword hkey]
    · have hne : Digest.ofKeyword other ≠ Digest.ofKeyword name := by
        intro heq
        apply hnot
        exact List.mem_map.2 ⟨_, hmem, heq.symm⟩
      simpa [Cell.digest_of_keyword hkey, hne] using ih hnodup hmem

/-- Fields with the same names and encodings have bindings with the same encodings. -/
theorem forall₂ {fields others : List Field} (h : Binds fields bindings)
    (hsame : List.Forall₂ (fun field other : Field => field.1 = other.1 ∧
      field.2.map Cell.encode = other.2.map Cell.encode) fields others) (h' : Binds others more) :
    List.Forall₂ (fun binding other : Cell × Cell => binding.1.encode = other.1.encode ∧
      binding.2.encode = other.2.encode) bindings more := by
  induction h generalizing others more with
  | nil =>
    cases hsame
    cases h'
    exact .nil
  | skip _ ih =>
    obtain _ | ⟨⟨-, hcell⟩, hrest⟩ := hsame
    cases h' with
    | skip h' => exact ih hrest h'
    | bind => cases hcell
  | bind hkey _ ih =>
    obtain _ | ⟨⟨hname, hcell⟩, hrest⟩ := hsame
    cases h' with
    | skip => cases hcell
    | bind hkey' h' =>
      refine .cons ⟨?_, Option.some.inj hcell⟩ (ih hrest h')
      dsimp only at hname
      exact Cell.encode_eq_of_leaf (by rw [hkey, hkey', hname])

end Binds

/-! ### The cell of a report -/

/-- The cell is a vector of these texts, in order. -/
def Spells (texts : List String) (cell : Cell) : Prop :=
  ∃ links, cell.value = .vector links ∧
    List.Forall₂ (fun text (link : Link) => ∃ target, link.target? = some target ∧
      target.value = .text text) texts links

theorem texts_of_targets {texts : List String} {cells : List Cell} {links : List Link}
    (htexts : List.Forall₂ (fun text (cell : Cell) => cell.value = .text text) texts cells)
    (hlinks : List.Forall₂ (fun cell (link : Link) => link.target? = some cell) cells links) :
    List.Forall₂ (fun text (link : Link) => ∃ target, link.target? = some target ∧
      target.value = .text text) texts links := by
  induction htexts generalizing links with
  | nil =>
    cases hlinks
    exact .nil
  | cons htext _ ih =>
    obtain _ | ⟨hlink, hlinks⟩ := hlinks
    exact .cons ⟨_, hlink, htext⟩ (ih hlinks)

/-- A trace is turned into a vector of its texts, unless it is empty. -/
def Traces (texts : List String) : Option Cell → Prop
  | none => texts = []
  | some cell => texts ≠ [] ∧ Spells texts cell

/-- The fields of the cell of a report, the trace and the address having been turned into these. -/
def fields (report : Report) (trace address : Option Cell) : List Field :=
  [("code", some report.code), ("message", report.message), ("trace", trace), ("address", address)]

/-- The cell has been made of the report, whose trace and address were turned into these cells. -/
structure Made (report : Report) (trace address : Option Cell) (cell : Cell) : Prop where
  traces : Traces report.trace trace
  locates : address.map Cell.value = report.address.map .address
  binds : ∃ bindings known, Binds (report.fields trace address) bindings ∧
    cell = ((Cell.makeMap bindings).run known).1

section

variable {resident : Link → Option Cell}

theorem endsWhere_makeKeyword {name : String}
    (hsize : ¬((Bytes.ofText name).length = 0 ∨ maxKeyword < (Bytes.ofText name).length)) :
    (Cell.makeKeyword name).EndsWhere resident fun outcome =>
      ∃ key : Cell, outcome = .ok key ∧ key.value = .keyword name := by
  unfold Cell.makeKeyword
  rw [if_neg hsize]
  exact .make _

theorem endsWhere_optionalBinding {name : String}
    (hsize : ¬((Bytes.ofText name).length = 0 ∨ maxKeyword < (Bytes.ofText name).length))
    (cell : Option Cell) :
    (optionalBinding name cell).EndsWhere resident fun outcome =>
      ∃ bindings, outcome = .ok bindings ∧ Binds [(name, cell)] bindings := by
  cases cell with
  | none => exact .pure ⟨[], rfl, .skip .nil⟩
  | some cell =>
    refine (endsWhere_makeKeyword hsize).bind (by rintro fault ⟨_, ⟨⟩, -⟩) ?_
    rintro key ⟨_, ⟨⟩, hkey⟩
    exact .pure ⟨_, rfl, .bind hkey .nil⟩

theorem endsWhere_texts (texts : List String) :
    EndsWhere resident (texts.mapM fun text => (liftM (Cell.make (.text text)) : Attempt Cell))
      fun outcome => ∃ cells, outcome = .ok cells ∧
        List.Forall₂ (fun text (cell : Cell) => cell.value = .text text) texts cells := by
  induction texts with
  | nil => exact .pure ⟨[], rfl, .nil⟩
  | cons text rest ih =>
    rw [List.mapM_cons]
    refine (EndsWhere.make _).bind (by rintro fault ⟨_, ⟨⟩, -⟩) ?_
    rintro first ⟨_, ⟨⟩, hfirst⟩
    refine ih.bind (by rintro fault ⟨_, ⟨⟩, -⟩) ?_
    rintro cells ⟨_, ⟨⟩, hcells⟩
    exact .pure ⟨_, rfl, .cons hfirst hcells⟩

theorem endsWhere_makeVector (items : List Cell) :
    EndsWhere resident (liftM (Cell.makeVector items) : Attempt Cell)
      fun outcome => ∃ cell links, outcome = .ok cell ∧ cell.value = .vector links ∧
        List.Forall₂ (fun item (link : Link) => link.target? = some item) items links := by
  intro known _
  have hlinks : ∀ (items : List Cell) (known : Knowledge),
      List.Forall₂ (fun item (link : Link) => link.target? = some item) items
        ((items.mapM Cell.link).run known).1 := by
    intro items
    induction items with
    | nil => exact fun _ => .nil
    | cons item rest ih =>
      intro known
      rw [List.mapM_cons]
      exact .cons rfl (ih _)
  have hidle : (Cell.makeVector items).Idle :=
    (Calc.Idle.mapM Calc.Idle.link).bind fun links => Calc.Idle.make _
  exact ⟨⟨_, _, rfl, rfl, hlinks items known⟩, hidle known⟩

/-- The map of the bindings found so far and of those of the trace and of the address. -/
theorem endsWhere_withTrace {report : Report} {bindings : List (Cell × Cell)} {trace : Option Cell}
    (hbindings : Binds [("code", some report.code), ("message", report.message)] bindings)
    (htrace : Traces report.trace trace) :
    EndsWhere resident (do
      let trace ← optionalBinding "trace" trace
      match report.address with
      | some a => do
        let cell ← liftM (Cell.make (.address a))
        let address ← optionalBinding "address" (some cell)
        liftM (Cell.makeMap (bindings ++ trace ++ address))
      | none => do
        let address ← optionalBinding "address" none
        liftM (Cell.makeMap (bindings ++ trace ++ address)) : Attempt Cell)
      fun outcome => ∃ cell, outcome = .ok cell ∧ ∃ address, report.Made trace address cell := by
  refine (endsWhere_optionalBinding (by decide +kernel) trace).bind
    (by rintro fault ⟨_, ⟨⟩, -⟩) ?_
  rintro more ⟨_, ⟨⟩, hmore⟩
  have hwith : ∀ address : Option Cell, address.map Cell.value = report.address.map .address →
      EndsWhere resident (do
        let address ← optionalBinding "address" address
        liftM (Cell.makeMap (bindings ++ more ++ address)) : Attempt Cell)
        fun outcome => ∃ cell, outcome = .ok cell ∧ ∃ address, report.Made trace address cell := by
    intro address haddress
    refine (endsWhere_optionalBinding (by decide +kernel) address).bind
      (by rintro fault ⟨_, ⟨⟩, -⟩) ?_
    rintro last ⟨_, ⟨⟩, hlast⟩ known -
    exact ⟨⟨_, rfl, address, htrace, haddress, _, known, (hbindings.append hmore).append hlast, rfl⟩,
      Calc.Idle.makeMap _ known⟩
  cases haddress : report.address with
  | none => exact hwith none (by rw [haddress]; rfl)
  | some a =>
    refine (EndsWhere.make _).bind (by rintro fault ⟨_, ⟨⟩, -⟩) ?_
    rintro cell ⟨_, ⟨⟩, hcell⟩
    exact hwith (some cell) (by rw [haddress, Option.map_some, Option.map_some, hcell])

/-- Every report can be turned into a cell, and what links hold stays as it is. -/
theorem endsWhere_toCell (report : Report) :
    report.toCell.EndsWhere resident fun outcome =>
      ∃ cell, outcome = .ok cell ∧ ∃ trace address, report.Made trace address cell := by
  have hsome : ∀ (trace : Option Cell) (outcome : Except Fault Cell),
      (∃ cell, outcome = .ok cell ∧ ∃ address, report.Made trace address cell) →
      ∃ cell, outcome = .ok cell ∧ ∃ trace address, report.Made trace address cell :=
    fun trace _ ⟨cell, hcell, hmade⟩ => ⟨cell, hcell, trace, hmade⟩
  unfold toCell
  refine (endsWhere_makeKeyword (by decide +kernel)).bind (by rintro fault ⟨_, ⟨⟩, -⟩) ?_
  rintro key ⟨_, ⟨⟩, hkey⟩
  refine (endsWhere_optionalBinding (by decide +kernel) report.message).bind
    (by rintro fault ⟨_, ⟨⟩, -⟩) ?_
  rintro message ⟨_, ⟨⟩, hmessage⟩
  have hbindings : Binds [("code", some report.code), ("message", report.message)]
      ((key, report.code) :: message) :=
    .bind hkey hmessage
  dsimp only
  by_cases hempty : report.trace.isEmpty
  · rw [if_pos hempty]
    have htrace : Traces report.trace none := List.isEmpty_iff.1 hempty
    exact (endsWhere_withTrace hbindings htrace).mono (hsome _)
  · rw [if_neg hempty]
    refine (endsWhere_texts report.trace).bind (by rintro fault ⟨_, ⟨⟩, -⟩) ?_
    rintro texts ⟨_, ⟨⟩, htexts⟩
    refine (endsWhere_makeVector texts).bind (by rintro fault ⟨_, _, ⟨⟩, -⟩) ?_
    rintro vector ⟨_, links, ⟨⟩, hvector, hlinks⟩
    have htrace : Traces report.trace (some vector) :=
      ⟨fun hnil => hempty (List.isEmpty_iff.2 hnil), links, hvector, texts_of_targets htexts hlinks⟩
    exact (endsWhere_withTrace hbindings htrace).mono (hsome _)

end

/-! ### What the cell tells of the report -/

/-- The names of the fields have different digests. -/
theorem nodup_fields (report : Report) (trace address : Option Cell) :
    ((report.fields trace address).map fun field => Digest.ofKeyword field.1).Nodup := by
  show (["code", "message", "trace", "address"].map Digest.ofKeyword).Nodup
  decide +kernel

section

variable (report : Report) (trace address : Option Cell)

theorem code_mem : ("code", some report.code) ∈ report.fields trace address := by simp [fields]

theorem message_mem : ("message", report.message) ∈ report.fields trace address := by simp [fields]

theorem trace_mem : ("trace", trace) ∈ report.fields trace address := by simp [fields]

theorem address_mem : ("address", address) ∈ report.fields trace address := by simp [fields]

end

/-- The report can be turned into this cell. -/
def Yields (report : Report) (cell : Cell) : Prop :=
  ∃ known known', report.toCell.run.run known = (.ok cell, known')

theorem Yields.made {report : Report} {cell : Cell} (h : report.Yields cell) :
    ∃ trace address, report.Made trace address cell := by
  obtain ⟨known, known', hrun⟩ := h
  obtain ⟨⟨made, houtcome, trace, address, hmade⟩, -⟩ := report.endsWhere_toCell known rfl
  rw [hrun] at houtcome
  cases houtcome
  exact ⟨trace, address, hmade⟩

/-- Turning a report into a cell does not fail. -/
theorem exists_toCell (report : Report) (known : Knowledge) :
    ∃ cell known', report.toCell.run.run known = (.ok cell, known') := by
  obtain ⟨⟨cell, houtcome, -⟩, -⟩ := report.endsWhere_toCell known rfl
  exact ⟨cell, _, Prod.ext houtcome rfl⟩

/-- What a map gives for the fields of a report, whatever is known. -/
structure Gives (report : Report) (cell : Cell) (known : Knowledge) : Prop where
  code : ∀ key : Cell, key.value = .keyword "code" →
    cell.answer key known = .ok (some report.code)
  message : ∀ key : Cell, key.value = .keyword "message" →
    cell.answer key known = .ok report.message
  trace : ∀ key : Cell, key.value = .keyword "trace" →
    ∃ trace, cell.answer key known = .ok trace ∧ Traces report.trace trace
  address : ∀ key : Cell, key.value = .keyword "address" →
    ∃ address, cell.answer key known = .ok address ∧
      address.map Cell.value = report.address.map .address

namespace Made

variable {report other : Report} {trace address trace' address' field field' : Option Cell}
  {cell cell' : Cell} {name : String}

/-- Each field is found under its name. -/
theorem answer (h : report.Made trace address cell)
    (hmem : (name, field) ∈ report.fields trace address) {key : Cell}
    (hkey : key.value = .keyword name) (known : Knowledge) :
    cell.answer key known = .ok field := by
  obtain ⟨bindings, known', hbinds, rfl⟩ := h.binds
  rw [Cell.answer_makeMap, Cell.digest_of_keyword hkey, hbinds.find? (report.nodup_fields _ _) hmem]

theorem gives (h : report.Made trace address cell) (known : Knowledge) :
    report.Gives cell known where
  code _ hkey := h.answer (report.code_mem ..) hkey known
  message _ hkey := h.answer (report.message_mem ..) hkey known
  trace _ hkey := ⟨trace, h.answer (report.trace_mem ..) hkey known, h.traces⟩
  address _ hkey := ⟨address, h.answer (report.address_mem ..) hkey known, h.locates⟩

/-- The entry of a field leads to it. -/
theorem entry (h : report.Made trace address cell)
    (hmem : (name, field) ∈ report.fields trace address) :
    ∃ entries, cell.value = .map entries ∧
      Option.Rel (fun found (entry : Entry) => entry.2.target? = some found) field
        (Entry.find? (Digest.ofKeyword name) entries) := by
  obtain ⟨bindings, known, hbinds, rfl⟩ := h.binds
  obtain ⟨entries, hvalue, -, hfind⟩ := Cell.exists_makeMap bindings known
  refine ⟨entries, hvalue, ?_⟩
  have hrel := hfind (Digest.ofKeyword name)
  rw [← hbinds.find? (report.nodup_fields _ _) hmem]
  generalize Entry.find? (Digest.ofKeyword name) entries = found at hrel
  generalize bindings.reverse.find? _ = last at hrel
  cases hrel with
  | some htargets => exact .some htargets.2
  | none => exact .none

/-- A field that is there can be had by a link of the cell. -/
theorem exists_link (h : report.Made trace address cell) {found : Cell}
    (hmem : (name, some found) ∈ report.fields trace address) :
    ∃ link ∈ cell.links, link.target? = some found := by
  obtain ⟨entries, hvalue, hrel⟩ := h.entry hmem
  generalize hentry : Entry.find? (Digest.ofKeyword name) entries = entry at hrel
  cases hrel with
  | @some _ entry htarget =>
    refine ⟨entry.2, ?_, htarget⟩
    rw [Cell.links, hvalue]
    exact List.mem_flatMap.2 ⟨entry, List.mem_of_find?_eq_some hentry, by simp⟩

/-- Cells with one encoding have been made of fields with the same digests. -/
theorem digest_eq (h : report.Made trace address cell) (h' : other.Made trace' address' cell')
    (hsound : cell.Sound) (hsound' : cell'.Sound) (hencode : cell.encode = cell'.encode)
    (hmem : (name, field) ∈ report.fields trace address)
    (hmem' : (name, field') ∈ other.fields trace' address') :
    field.map Cell.digest = field'.map Cell.digest := by
  obtain ⟨entries, hvalue, hrel⟩ := h.entry hmem
  obtain ⟨entries', hvalue', hrel'⟩ := h'.entry hmem'
  -- Both have entries that are written alike, so these name the same digests.
  have hwritten := Cell.mapLinks_eq_of_encode_eq hsound hsound' hencode
  rw [hvalue, hvalue', Value.mapLinks, Value.mapLinks, Value.map.injEq] at hwritten
  have halike : List.Forall₂ (fun entry entry' : Entry => entry.1.digest = entry'.1.digest ∧
      entry.2.digest = entry'.2.digest) entries entries' := by
    rw [← List.forall₂_eq_eq_eq, List.forall₂_map_left_iff, List.forall₂_map_right_iff] at hwritten
    refine hwritten.imp fun entry entry' heq => ?_
    obtain ⟨hkey, hcell⟩ := Prod.ext_iff.1 heq
    exact ⟨(Link.twins hkey).digest_eq, (Link.twins hcell).digest_eq⟩
  have hfound := Cell.rel_find? (p := fun entry => entry.1.digest = Digest.ofKeyword name)
    (q := fun entry => entry.1.digest = Digest.ofKeyword name)
    (fun entry entry' heq => by rw [heq.1]) halike
  have hdigests := Cell.map_eq_of_rel hfound fun entry entry' heq => heq.2.symm
  have hfield := Cell.map_eq_of_rel hrel fun _ _ => Link.digest_of_target
  have hfield' := Cell.map_eq_of_rel hrel' fun _ _ => Link.digest_of_target
  exact hfield.symm.trans (hdigests.symm.trans hfield')

/-- Fields with the same encodings make cells with one encoding. -/
theorem encode_eq (h : report.Made trace address cell) (h' : other.Made trace' address' cell')
    (hcode : report.code.encode = other.code.encode)
    (hmessage : report.message.map Cell.encode = other.message.map Cell.encode)
    (htrace : trace.map Cell.encode = trace'.map Cell.encode)
    (haddress : address.map Cell.encode = address'.map Cell.encode) :
    cell.encode = cell'.encode := by
  obtain ⟨bindings, known, hbinds, rfl⟩ := h.binds
  obtain ⟨bindings', known', hbinds', rfl⟩ := h'.binds
  have hfields : List.Forall₂ (fun field other : Field => field.1 = other.1 ∧
      field.2.map Cell.encode = other.2.map Cell.encode) (report.fields trace address)
      (other.fields trace' address') :=
    .cons ⟨rfl, congrArg some hcode⟩ <| .cons ⟨rfl, hmessage⟩ <| .cons ⟨rfl, htrace⟩ <|
      .cons ⟨rfl, haddress⟩ .nil
  refine Cell.encode_makeMap_of_last (fun digest => ?_) known known'
  have hsame := List.forall₂_reverse_iff.2 (hbinds.forall₂ hfields hbinds')
  refine (Cell.map_eq_of_rel (Cell.rel_find? (fun binding binding' heq => ?_) hsame)
    fun binding binding' heq => ?_).symm
  · exact decide_eq_decide.2 (by rw [Cell.digest, Cell.digest, heq.1])
  · rw [heq.1, heq.2]

end Made

end Report

namespace Session

variable {ι : Type} {session : Session ι}

/-- Optional cells of one digest have one encoding. -/
theorem encode_eq_of_digest_eq (hinj : Set.InjOn Digest.of session.encodings) {a b : Option Cell}
    (ha : a ∈ session.optionalCells) (hb : b ∈ session.optionalCells)
    (h : a.map Cell.digest = b.map Cell.digest) : a.map Cell.encode = b.map Cell.encode := by
  cases a with
  | none =>
    cases b with
    | none => rfl
    | some b => cases h
  | some a =>
    cases b with
    | none => cases h
    | some b =>
      have hdigest : Digest.of a.encode = Digest.of b.encode := Option.some.inj h
      exact congrArg some
        (hinj (encode_mem_encodings (ha a rfl)) (encode_mem_encodings (hb b rfl)) hdigest)

variable [DecidableEq ι]

/-- What a cell of a session is made of is there in the session. -/
theorem Reached.target_mem (h : session.Reached) {cell : Cell} (hcell : cell ∈ session.cells)
    {link : Link} (hlink : link ∈ cell.links) {target : Cell} (ht : link.target? = some target) :
    target ∈ session.cells :=
  target_mem_cells ((h.inv.toSound.valid hcell).links link (Cell.mem_everyLink_of_mem hlink)) ht

/-- Cells with one encoding are written with the same children. -/
theorem Reached.mapLinks_eq (h : session.Reached) {a b : Cell} (ha : a ∈ session.cells)
    (hb : b ∈ session.cells) (hencode : a.encode = b.encode) :
    a.value.mapLinks Link.written = b.value.mapLinks Link.written :=
  Cell.mapLinks_eq_of_encode_eq (h.inv.toSound.cell ha) (h.inv.toSound.cell hb) hencode

/-- Two vectors of texts with one encoding are of the same texts, in the same order. -/
theorem Reached.texts_eq (h : session.Reached) (hinj : Set.InjOn Digest.of session.encodings)
    {texts texts' : List String} {vector vector' : Cell} (hvector : vector ∈ session.cells)
    (hvector' : vector' ∈ session.cells) (hspells : Report.Spells texts vector)
    (hspells' : Report.Spells texts' vector') (hencode : vector.encode = vector'.encode) :
    texts = texts' := by
  obtain ⟨links, hvalue, htexts⟩ := hspells
  obtain ⟨links', hvalue', htexts'⟩ := hspells'
  have hwritten := h.mapLinks_eq hvector hvector' hencode
  rw [hvalue, hvalue', Value.mapLinks, Value.mapLinks, Value.vector.injEq] at hwritten
  have hmem : ∀ link ∈ links, ∀ t, link.target? = some t → t ∈ session.cells :=
    fun link hlink t ht => h.target_mem hvector (by rw [Cell.links, hvalue]; exact hlink) ht
  have hmem' : ∀ link ∈ links', ∀ t, link.target? = some t → t ∈ session.cells :=
    fun link hlink t ht => h.target_mem hvector' (by rw [Cell.links, hvalue']; exact hlink) ht
  clear hvalue hvalue'
  -- Item by item, from here on.
  induction htexts generalizing texts' links' with
  | nil =>
    obtain rfl : links' = [] := List.map_eq_nil_iff.1 hwritten.symm
    cases htexts'
    rfl
  | @cons text link rest links htext _ ih =>
    obtain ⟨link', links', rfl, hlink, hlinks⟩ := List.map_eq_cons_iff.1 hwritten.symm
    obtain _ | ⟨htext', htexts'⟩ := htexts'
    obtain ⟨target, ht, htarget⟩ := htext
    obtain ⟨target', ht', htarget'⟩ := htext'
    have htargets : target ∈ session.cells := hmem link (List.mem_cons_self ..) target ht
    have htargets' : target' ∈ session.cells := hmem' link' (List.mem_cons_self ..) target' ht'
    have hdigest : target.digest = target'.digest := by
      rw [← Link.digest_of_target ht, ← Link.digest_of_target ht', (Link.twins hlink).digest_eq]
    have hvalue := h.mapLinks_eq htargets htargets'
      (hinj (encode_mem_encodings htargets) (encode_mem_encodings htargets') hdigest)
    rw [htarget, htarget', Value.mapLinks, Value.mapLinks, Value.text.injEq] at hvalue
    rw [hvalue, ih _ htexts' hlinks.symm (fun l hl => hmem l (List.mem_cons_of_mem _ hl))
      fun l hl => hmem' l (List.mem_cons_of_mem _ hl)]

/-- Two traces of one encoding are of the same texts. -/
theorem Reached.traces_eq (h : session.Reached) (hinj : Set.InjOn Digest.of session.encodings)
    {texts texts' : List String} {trace trace' : Option Cell}
    (htrace : trace ∈ session.optionalCells) (htrace' : trace' ∈ session.optionalCells)
    (htraces : Report.Traces texts trace) (htraces' : Report.Traces texts' trace')
    (hencode : trace.map Cell.encode = trace'.map Cell.encode) : texts = texts' := by
  cases trace with
  | none =>
    cases trace' with
    | none => exact Eq.trans htraces (Eq.symm htraces')
    | some vector' => cases hencode
  | some vector =>
    cases trace' with
    | none => cases hencode
    | some vector' =>
      exact h.texts_eq hinj (htrace vector rfl) (htrace' vector' rfl) htraces.2 htraces'.2
        (Option.some.inj hencode)

/-- Two cells for addresses have one encoding if and only if the addresses are the same. -/
theorem Reached.address_eq_iff (h : session.Reached) {a a' : Option Address}
    {address address' : Option Cell} (haddress : address ∈ session.optionalCells)
    (haddress' : address' ∈ session.optionalCells)
    (hlocates : address.map Cell.value = a.map .address)
    (hlocates' : address'.map Cell.value = a'.map .address) :
    address.map Cell.encode = address'.map Cell.encode ↔ a = a' := by
  have hcell : ∀ {a : Option Address} {cell : Cell}, (some cell).map Cell.value = a.map .address →
      ∃ b, a = some b ∧ cell.value = .address b := by
    rintro (_ | b) cell heq
    · cases heq
    · exact ⟨b, rfl, Option.some.inj heq⟩
  constructor
  · intro hencode
    cases address with
    | none =>
      cases address' with
      | none =>
        rw [Option.map_eq_none_iff.1 hlocates.symm, Option.map_eq_none_iff.1 hlocates'.symm]
      | some cell' => cases hencode
    | some cell =>
      cases address' with
      | none => cases hencode
      | some cell' =>
        obtain ⟨b, rfl, hvalue⟩ := hcell hlocates
        obtain ⟨b', rfl, hvalue'⟩ := hcell hlocates'
        have heq := h.mapLinks_eq (haddress cell rfl) (haddress' cell' rfl)
          (Option.some.inj hencode)
        rw [hvalue, hvalue', Value.mapLinks, Value.mapLinks, Value.address.injEq] at heq
        rw [heq]
  · rintro rfl
    have hvalues := hlocates.trans hlocates'.symm
    cases address with
    | none => rw [Option.map_eq_none_iff.1 hvalues.symm]
    | some cell =>
      obtain ⟨cell', rfl, hvalue⟩ := Option.map_eq_some_iff.1 hvalues.symm
      exact congrArg some (Cell.encode_eq_of_leaf hvalue.symm)

end Session

namespace Report

variable {texts : List String} {trace trace' : Option Cell}

/-- The same texts are turned into traces with one encoding. -/
theorem Traces.encode_eq (h : Traces texts trace) (h' : Traces texts trace') :
    trace.map Cell.encode = trace'.map Cell.encode := by
  cases trace with
  | none =>
    cases trace' with
    | none => rfl
    | some vector' => exact absurd h h'.1
  | some vector =>
    cases trace' with
    | none => exact absurd h' h.1
    | some vector' =>
      obtain ⟨-, links, hvalue, htexts⟩ := h
      obtain ⟨-, links', hvalue', htexts'⟩ := h'
      have hwritten : links.map Link.written = links'.map Link.written := by
        clear hvalue hvalue'
        induction htexts generalizing links' with
        | nil =>
          cases htexts'
          rfl
        | cons htext _ ih =>
          obtain _ | ⟨htext', htexts'⟩ := htexts'
          obtain ⟨target, ht, htarget⟩ := htext
          obtain ⟨target', ht', htarget'⟩ := htext'
          have hencode : target.encode = target'.encode :=
            Cell.encode_eq_of_leaf (htarget.trans htarget'.symm)
          rw [List.map_cons, List.map_cons, ih _ htexts', Link.written_of_target ht,
            Link.written_of_target ht', hencode]
      rw [Option.map_some, Option.map_some, Cell.encode_of_value hvalue,
        Cell.encode_of_value hvalue']
      exact congrArg (fun items => some (Value.write (.vector items))) hwritten

/-- Whether two reports agree in all fields but the log, as far as this much is known. -/
structure Agrees (known : Knowledge) (report other : Report) : Prop where
  code : known.Equates (some report.code) (some other.code)
  message : known.Equates report.message other.message
  trace : report.trace = other.trace
  address : report.address = other.address

end Report

namespace Session

variable {ι : Type} [DecidableEq ι] {session : Session ι}

/-- The cells of two reports have one encoding if and only if the reports agree. -/
theorem Reached.encode_eq_iff_agrees (h : session.Reached)
    (hinj : Set.InjOn Digest.of session.encodings) {report other : Report} {first second : Cell}
    (hfirst : first ∈ session.cells) (hsecond : second ∈ session.cells)
    {trace address trace' address' : Option Cell} (hmade : report.Made trace address first)
    (hmade' : other.Made trace' address' second) (known : Knowledge) :
    first.encode = second.encode ↔ report.Agrees known other := by
  have hmem : ∀ {name : String} {field : Option Cell},
      (name, field) ∈ report.fields trace address → field ∈ session.optionalCells := by
    rintro name field hfield found ⟨⟩
    obtain ⟨link, hlink, ht⟩ := hmade.exists_link hfield
    exact h.target_mem hfirst hlink ht
  have hmem' : ∀ {name : String} {field : Option Cell},
      (name, field) ∈ other.fields trace' address' → field ∈ session.optionalCells := by
    rintro name field hfield found ⟨⟩
    obtain ⟨link, hlink, ht⟩ := hmade'.exists_link hfield
    exact h.target_mem hsecond hlink ht
  have hcode := h.equates_iff hinj (hmem (report.code_mem ..)) (hmem' (other.code_mem ..)) known
  have hmessage :=
    h.equates_iff hinj (hmem (report.message_mem ..)) (hmem' (other.message_mem ..)) known
  have haddress := h.address_eq_iff (hmem (report.address_mem ..)) (hmem' (other.address_mem ..))
    hmade.locates hmade'.locates
  constructor
  · intro hencode
    have hfields : ∀ {name : String} {field field' : Option Cell},
        (name, field) ∈ report.fields trace address →
        (name, field') ∈ other.fields trace' address' →
        field.map Cell.encode = field'.map Cell.encode := by
      intro name field field' hfield hfield'
      refine encode_eq_of_digest_eq hinj (hmem hfield) (hmem' hfield') ?_
      exact hmade.digest_eq hmade' (h.inv.toSound.cell hfirst) (h.inv.toSound.cell hsecond) hencode
        hfield hfield'
    have htrace := hfields (report.trace_mem ..) (other.trace_mem ..)
    exact {
      code := hcode.2 (hfields (report.code_mem ..) (other.code_mem ..))
      message := hmessage.2 (hfields (report.message_mem ..) (other.message_mem ..))
      trace := h.traces_eq hinj (hmem (report.trace_mem ..)) (hmem' (other.trace_mem ..))
        hmade.traces hmade'.traces htrace
      address := haddress.1 (hfields (report.address_mem ..) (other.address_mem ..)) }
  · rintro ⟨hcodes, hmessages, htraces, haddresses⟩
    have htrace := hmade.traces
    rw [htraces] at htrace
    exact hmade.encode_eq hmade' (Option.some.inj (hcode.1 hcodes)) (hmessage.1 hmessages)
      (htrace.encode_eq hmade'.traces) (haddress.2 haddresses)

/--
Every report can be turned into a cell. The cells of two reports are found to be equal, and have one
encoding, if and only if the reports agree in their codes, their messages, all of their traces and
their addresses; their logs make no difference. The cell gives each field under its name, and none
only for a field that is missing and for an empty trace.
-/
theorem Reached.reporting (h : session.Reached) (hinj : Set.InjOn Digest.of session.encodings)
    {report other : Report} {first second : Cell} (hfirst : first ∈ session.cells)
    (hsecond : second ∈ session.cells) (hyields : report.Yields first)
    (hyields' : other.Yields second) (known : Knowledge) :
    (∀ any : Report, ∃ cell known', any.toCell.run.run known = (.ok cell, known')) ∧
      (known.Equates (some first) (some second) ↔ report.Agrees known other) ∧
      (first.encode = second.encode ↔ report.Agrees known other) ∧ report.Gives first known := by
  obtain ⟨trace, address, hmade⟩ := hyields.made
  obtain ⟨trace', address', hmade'⟩ := hyields'.made
  have hencode := h.encode_eq_iff_agrees hinj hfirst hsecond hmade hmade' known
  have hequates : known.Equates (some first) (some second) ↔ first.encode = second.encode := by
    have hcell : some first ∈ session.optionalCells := by rintro _ ⟨⟩; exact hfirst
    have hcell' : some second ∈ session.optionalCells := by rintro _ ⟨⟩; exact hsecond
    rw [h.equates_iff hinj hcell hcell' known, Option.map_some, Option.map_some, Option.some.injEq]
  exact ⟨fun any => any.exists_toCell known, hequates.trans hencode, hencode, hmade.gives known⟩

/-! ### Reports that differ in the log, or in the order of the trace -/

/-- The code of a failure. -/
def failureCode : Cell := .mk 0 (.keyword "FUNDS")

/-- What is said about it, at some length. -/
def failureText : Cell := .mk 1 (.blob (List.replicate 200 1))

/-- A failure at an address, with a trace and perhaps a log. -/
def failure (trace : List String) (log : Option Cell) : Report :=
  { code := failureCode, message := some failureText, trace, log, address := some ⟨9⟩ }

/-- A user who has made the code and the text. -/
def prepared : Session Unit :=
  ((perform { stores := fun _ => .emptyTable } (.cells (.keyword "FUNDS"))).perform
    (.cells (.blob (List.replicate 200 1))))

/-- The user reports a failure without a log and with one, and another with the layers swapped. -/
def reported : Session Unit :=
  ((prepared.perform (.cells (.report (failure ["in", "out"] none)))).perform
    (.cells (.report (failure ["in", "out"] (some failureCode))))).perform
      (.cells (.report (failure ["out", "in"] none)))

/-- What the user has asked for. -/
def reportRequests : List (Request Unit) :=
  [.cells (.keyword "FUNDS"), .cells (.blob (List.replicate 200 1)),
    .cells (.report (failure ["in", "out"] none)),
    .cells (.report (failure ["in", "out"] (some failureCode))),
    .cells (.report (failure ["out", "in"] none))]

set_option maxRecDepth 20000 in
theorem reported_evaluated :
    FitsThroughout [()] { stores := fun _ => .emptyTable } reportRequests ∧
      ∀ a ∈ reported.everyEncoding [()], ∀ b ∈ reported.everyEncoding [()],
        Digest.of a = Digest.of b → a = b := by
  decide +kernel

theorem failureCode_mem : .cell failureCode ∈ prepared.items :=
  mem_items_of_places [0] rfl _ (List.mem_singleton_self _)

theorem failureText_mem : .cell failureText ∈ prepared.items :=
  mem_items_of_places [1] rfl _ (List.mem_singleton_self _)

/-- Who has the code and the text has what a failure is reported with. -/
theorem failure_supplied {session : Session Unit} (hcode : .cell failureCode ∈ session.items)
    (htext : .cell failureText ∈ session.items) (trace : List String) (log : Option Cell)
    (hlog : ∀ cell ∈ log, cell = failureCode) :
    ∀ item ∈ (Request.cells (ι := Unit) (.report (failure trace log))).arguments,
      item ∈ session.items := by
  intro item hitem
  rcases List.mem_cons.1 hitem with rfl | hitem
  · exact hcode
  · obtain ⟨cell, hcell, rfl⟩ := List.mem_map.1 hitem
    rcases List.mem_append.1 hcell with hcell | hcell
    · cases List.mem_singleton.1 hcell
      exact htext
    · rw [hlog cell (Option.mem_toList.1 hcell)]
      exact hcode

theorem reached_reported : reported.Reached := by
  let plain := prepared.perform (.cells (.report (failure ["in", "out"] none)))
  have hcode : .cell failureCode ∈ plain.items := mem_items_perform failureCode_mem _
  have htext : .cell failureText ∈ plain.items := mem_items_perform failureText_mem _
  have hplain := failure_supplied failureCode_mem failureText_mem ["in", "out"] none nofun
  have hlogged := failure_supplied hcode htext ["in", "out"] (some failureCode)
    (by rintro _ ⟨⟩; rfl)
  have hswapped := failure_supplied
    (mem_items_perform hcode (.cells (.report (failure ["in", "out"] (some failureCode)))))
    (mem_items_perform htext (.cells (.report (failure ["in", "out"] (some failureCode)))))
    ["out", "in"] none nofun
  have hstart := Reached.start (fun _ : Unit => .emptyTable) fun _ => .inr rfl
  have hsupplies : Supplies { stores := fun _ => .emptyTable } reportRequests :=
    ⟨nofun, nofun, hplain, hlogged, hswapped, trivial⟩
  have hreached := hstart.requests mem_unit reportRequests reported_evaluated.1 hsupplies
  simp only [reportRequests, List.foldl_cons, List.foldl_nil] at hreached
  exact hreached

/-- Who asks for the cell of a report gets it. -/
theorem exists_yields (session : Session ι) (report : Report) :
    ∃ cell, report.Yields cell ∧ .cell cell ∈ (session.perform (.cells (.report report))).items := by
  obtain ⟨cell, known', hrun⟩ := report.exists_toCell session.known
  refine ⟨cell, ⟨session.known, known', hrun⟩, ?_⟩
  have hitems : ((Operation.report report).run.run.run session.known).1 = .ok [.cell cell] := by
    rw [Operation.run, run_run_bind, hrun]
    rfl
  show .cell cell ∈
    session.items ++ ((Operation.report report).run.run.run session.known).1.toOption.getD []
  rw [hitems]
  exact List.mem_append_right _ (List.mem_singleton_self _)

set_option maxRecDepth 20000 in
/-- The log makes no difference, but the order of the layers does. -/
theorem reported_told :
    Set.InjOn Digest.of reported.encodings ∧
      ∃ plain logged swapped : Cell, plain ∈ reported.cells ∧ logged ∈ reported.cells ∧
        swapped ∈ reported.cells ∧ (failure ["in", "out"] none).Yields plain ∧
        (failure ["in", "out"] (some failureCode)).Yields logged ∧
        (failure ["out", "in"] none).Yields swapped ∧
        reported.known.Equates (some plain) (some logged) ∧ plain.encode = logged.encode ∧
        ¬reported.known.Equates (some plain) (some swapped) ∧ plain.encode ≠ swapped.encode := by
  have hinj : Set.InjOn Digest.of reported.encodings :=
    injOn_of_everyEncoding mem_unit reported_evaluated.2
  obtain ⟨plain, hplain, hmem⟩ := prepared.exists_yields (failure ["in", "out"] none)
  obtain ⟨logged, hlogged, hmem'⟩ :=
    (prepared.perform (.cells (.report (failure ["in", "out"] none)))).exists_yields
      (failure ["in", "out"] (some failureCode))
  obtain ⟨swapped, hswapped, hmem''⟩ :=
    ((prepared.perform (.cells (.report (failure ["in", "out"] none)))).perform
      (.cells (.report (failure ["in", "out"] (some failureCode))))).exists_yields
      (failure ["out", "in"] none)
  have hfirst : plain ∈ reported.cells := .inl (mem_items_perform (mem_items_perform hmem _) _)
  have hsecond : logged ∈ reported.cells := .inl (mem_items_perform hmem' _)
  have hthird : swapped ∈ reported.cells := .inl hmem''
  obtain ⟨-, hsame, hencode, -⟩ :=
    reached_reported.reporting hinj hfirst hsecond hplain hlogged reported.known
  obtain ⟨-, hdiffer, hencode', -⟩ :=
    reached_reported.reporting hinj hfirst hthird hplain hswapped reported.known
  have hcode : some failureCode ∈ reported.optionalCells := by
    rintro _ ⟨⟩
    exact .inl (mem_items_perform (mem_items_perform (mem_items_perform failureCode_mem _) _) _)
  have htext : some failureText ∈ reported.optionalCells := by
    rintro _ ⟨⟩
    exact .inl (mem_items_perform (mem_items_perform (mem_items_perform failureText_mem _) _) _)
  have hagrees : (failure ["in", "out"] none).Agrees reported.known
      (failure ["in", "out"] (some failureCode)) :=
    ⟨(reached_reported.equates_iff hinj hcode hcode _).2 rfl,
      (reached_reported.equates_iff hinj htext htext _).2 rfl, rfl, rfl⟩
  have hnot : ¬(failure ["in", "out"] none).Agrees reported.known (failure ["out", "in"] none) :=
    fun hagrees => absurd hagrees.trace (by decide)
  exact ⟨hinj, plain, logged, swapped, hfirst, hsecond, hthird, hplain, hlogged, hswapped,
    hsame.2 hagrees, hencode.2 hagrees, mt hdiffer.1 hnot, mt hencode'.1 hnot⟩

end Session

end CellGraph
