import CellGraph.Proofs.Cell.Ascending
import CellGraph.Proofs.Computation.Craft
import CellGraph.Report
import CellGraph.Stake.Update

/-!
# Everything that is made is valid

The operations that make cells and records make valid ones of valid ones, and their links are in use
from then on.

* `StakeRecord.Within`: valid records;
* `Craft.keeps_makeMap`, `Craft.keeps_insert`, `Craft.keeps_erase`: maps;
* `Craft.keeps_update`: updates of stake records;
* `Craft.keeps_toCell`: reports.
-/

namespace CellGraph

/-- A valid record whose links are in use. -/
structure StakeRecord.Within (held : Set Link) (record : StakeRecord Link) : Prop where
  valid : record.validate Link.target? = .ok ()
  links : ∀ link ∈ record.links, link ∈ held

/-- What is valid as far as it is in memory is valid as far as it holds its children itself. -/
theorem StakeRecord.validate_target {known : Knowledge} {record : StakeRecord Link}
    (h : record.validate known.resident = .ok ()) : record.validate Link.target? = .ok () := by
  have hshows : Shows known.resident Link.target? Eq := by
    refine Shows.of_le fun link cell hcell => ?_
    cases link with
    | direct => exact hcell
    | soft => cases hcell
  rw [← Value.validate_peer_iff] at h ⊢
  exact Value.validate_of_alike hshows (by rintro _ _ rfl; rfl) (Value.Alike.refl fun _ _ => rfl) h

namespace Craft

variable {craft : Craft} {held : Set Link}

/-! ### Cells -/

theorem valid_of_plain {value : Value Link} (hcanonical : value.isCanonical Link.target?)
    (hplain : ∀ record, value = .peer record → False) (label : Label) :
    Cell.Valid (.mk label value) :=
  (Value.validate_eq_ok_iff _).2 ⟨hcanonical, fun record h => (hplain record h).elim⟩

theorem keeps_makeKeyword (name : String) :
    craft.law.Keeps held (fun _ => True) (Cell.makeKeyword name)
      fun cell held' _ => craft.Owns held' cell := by
  unfold Cell.makeKeyword
  dsimp only
  split
  · exact .throw _
  · next hsize =>
    refine craft.make (.keyword name) (valid_of_plain ?_ (by rintro _ ⟨⟩)) (by simp [Value.links])
    simp only [Value.isCanonical, Bool.and_eq_true, decide_eq_true_eq]
    omega

/-- A vector of links that are in use. -/
theorem keeps_vector {items : List Link} (h : ∀ link ∈ items, link ∈ held) :
    craft.law.Keeps held (fun _ => True) (liftM (Cell.make (.vector items)) : Attempt Cell)
      fun cell held' _ => craft.Owns held' cell :=
  craft.make (.vector items) (valid_of_plain rfl (by rintro _ ⟨⟩)) h

theorem keeps_makeVector {items : List Cell} (h : ∀ cell ∈ items, craft.Owns held cell) :
    craft.law.Keeps held (fun _ => True) (liftM (Cell.makeVector items) : Attempt Cell)
      fun cell held' _ => craft.Owns held' cell := by
  rw [Cell.makeVector, liftM_bind, liftM_mapM]
  refine .bind (.mapM (fun link held' => link ∈ held') (fun cell hcell held' hsub => ?_)
    fun _ _ _ hsub hlink => hsub hlink) fun links held' _ => .assume keeps_vector
  exact craft.link ((h cell hcell).mono hsub)

/-! ### Maps -/

theorem keeps_map {entries : List Entry} (hascending : Entry.Ascending entries)
    (h : ∀ entry ∈ entries, entry.1 ∈ held ∧ entry.2 ∈ held) :
    craft.law.Keeps held (fun _ => True) (liftM (Cell.make (.map entries)) : Attempt Cell)
      fun cell held' _ => craft.Owns held' cell := by
  refine craft.make (.map entries) (valid_of_plain ?_ (by rintro _ ⟨⟩)) ?_
  · exact (Entry.isCanonical_iff _ entries).2 hascending
  · intro link hlink
    obtain ⟨entry, hentry, hlink⟩ := List.mem_flatMap.1 hlink
    rcases List.mem_cons.1 hlink with rfl | hlink
    · exact (h entry hentry).1
    · rw [List.mem_singleton.1 hlink]
      exact (h entry hentry).2

theorem keeps_makeEntry {key value : Cell} (hkey : craft.Owns held key)
    (hvalue : craft.Owns held value) :
    craft.law.Keeps held (fun _ => True) (liftM (Cell.makeEntry key value) : Attempt Entry)
      fun entry held' _ => entry.1 ∈ held' ∧ entry.2 ∈ held' := by
  rw [Cell.makeEntry, liftM_bind]
  refine (craft.notes key.onlyNotes_noteDigest).bind fun _ held₁ hsub₁ => .assume fun _ => ?_
  rw [liftM_bind]
  refine (craft.link (hkey.mono hsub₁)).bind fun keyLink held₂ hsub₂ => .assume fun hkeyLink => ?_
  rw [liftM_bind]
  refine (craft.link (hvalue.mono (hsub₁.trans hsub₂))).bind fun link held₃ hsub₃ =>
    .assume fun hlink => ?_
  exact .pure fun _ _ _ => ⟨hsub₃ hkeyLink, hlink⟩

theorem keeps_makeMap {bindings : List (Cell × Cell)}
    (h : ∀ binding ∈ bindings,
      craft.Owns held binding.1 ∧ craft.Owns held binding.2) :
    craft.law.Keeps held (fun _ => True) (liftM (Cell.makeMap bindings) : Attempt Cell)
      fun cell held' _ => craft.Owns held' cell := by
  rw [Cell.makeMap, liftM_bind, liftM_mapM]
  refine .bind (.mapM (fun entry held' => entry.1 ∈ held' ∧ entry.2 ∈ held')
    (fun binding hbinding held' hsub => ?_) fun _ _ _ hsub hentry => ⟨hsub hentry.1, hsub hentry.2⟩)
    fun entries held' _ => .assume fun hentries =>
      keeps_map (Entry.ascending_ofList entries) fun entry hentry => hentries entry
        (Entry.mem_ofList hentry)
  obtain ⟨hkey, hvalue⟩ := h binding hbinding
  exact keeps_makeEntry (hkey.mono hsub) (hvalue.mono hsub)

/-- The entries of a map that is in use are in order, and their links are in use. -/
theorem entries_of_within {map : Cell} (h : map.Within Cell.Valid held) {entries : List Entry}
    (hentries : map.entries? = .ok entries) :
    Entry.Ascending entries ∧ ∀ entry ∈ entries, entry.1 ∈ held ∧ entry.2 ∈ held := by
  have hvalue : map.value = .map entries := by
    unfold Cell.entries? at hentries
    split at hentries
    · next hvalue =>
      cases hentries
      exact hvalue
    · cases hentries
  refine ⟨?_, fun entry hentry => ⟨?_, ?_⟩⟩
  · have hvalid := ((Value.validate_eq_ok_iff _).1 h.good).1
    rw [hvalue] at hvalid
    exact (Entry.isCanonical_iff _ entries).1 hvalid
  all_goals
    refine h.links _ (Cell.mem_everyLink_of_mem ?_)
    rw [Cell.links, hvalue]
    exact List.mem_flatMap.2 ⟨entry, hentry, by simp⟩

theorem keeps_noteKeys (entries : List Entry) :
    craft.law.Keeps held (fun _ => True)
      (entries.forM fun entry => (liftM entry.1.noteDigest : Attempt PUnit)) fun _ _ _ => True := by
  refine (Law.Keeps.forM (fun _ _ => True) (fun entry _ _ _ => ?_)
    fun _ _ _ _ _ _ h => h).mono_right fun _ _ _ _ => trivial
  exact (craft.notes entry.1.onlyNotes_noteDigest).mono_right fun _ _ _ _ => trivial

theorem keeps_insert {map key value : Cell} (hmap : craft.Owns held map)
    (hkey : craft.Owns held key) (hvalue : craft.Owns held value) :
    craft.law.Keeps held (fun _ => True) (map.insert key value)
      fun cell held' _ => craft.Owns held' cell := by
  refine Law.Keeps.ofExcept.bind fun entries held₁ hsub₁ => .assume fun hentries => ?_
  obtain ⟨hascending, hlinks⟩ := entries_of_within hmap.within hentries
  refine (keeps_makeEntry (hkey.mono hsub₁) (hvalue.mono hsub₁)).bind fun entry held₂ hsub₂ =>
    .assume fun hentry => ?_
  refine (keeps_noteKeys entries).bind fun _ held₃ hsub₃ => ?_
  refine keeps_map (Entry.ascending_insert hascending) fun other hother => ?_
  rcases Entry.mem_insert hother with rfl | hother
  · exact ⟨hsub₃ hentry.1, hsub₃ hentry.2⟩
  · have hsub := (hsub₁.trans hsub₂).trans hsub₃
    exact ⟨hsub (hlinks other hother).1, hsub (hlinks other hother).2⟩

theorem keeps_erase {map key : Cell} (hmap : craft.Owns held map) :
    craft.law.Keeps held (fun _ => True) (map.erase key)
      fun cell held' _ => craft.Owns held' cell := by
  refine Law.Keeps.ofExcept.bind fun entries held₁ hsub₁ => .assume fun hentries => ?_
  obtain ⟨hascending, hlinks⟩ := entries_of_within hmap.within hentries
  refine (craft.notes key.onlyNotes_hash).bind fun digest held₂ hsub₂ => .assume fun _ => ?_
  refine (keeps_noteKeys entries).bind fun _ held₃ hsub₃ => ?_
  have hsub := (hsub₁.trans hsub₂).trans hsub₃
  split
  · refine keeps_map (Entry.ascending_erase hascending) fun other hother => ?_
    have hmem := List.mem_of_mem_eraseP hother
    exact ⟨hsub (hlinks other hmem).1, hsub (hlinks other hmem).2⟩
  · exact .pure fun _ _ _ => hmap.mono hsub

/-! ### Stake records -/

theorem keeps_findDigest {map : Cell} (hmap : craft.Owns held map) (digest : Digest) :
    craft.law.Keeps held (fun _ => True) (map.findDigest? digest) fun _ _ _ => True := by
  refine Law.Keeps.ofExcept.bind fun entries held₁ hsub₁ => .assume fun hentries => ?_
  obtain ⟨-, hlinks⟩ := entries_of_within hmap.within hentries
  refine (keeps_noteKeys entries).bind fun _ held₂ hsub₂ => ?_
  split
  · next entry hfind =>
    have hentry := (hlinks entry (List.mem_of_find?_eq_some hfind)).2
    exact (craft.load (hsub₂ (hsub₁ hentry))).bind fun _ _ _ => .pure fun _ _ _ => trivial
  · exact .pure fun _ _ _ => trivial

theorem keeps_loadOption {link : Option Link} (h : ∀ l ∈ link, l ∈ held) :
    craft.law.Keeps held (fun _ => True) (Link.loadOption link)
      fun cell held' _ => ∀ c ∈ cell, craft.Owns held' c := by
  cases link with
  | none => exact .pure fun _ _ _ => nofun
  | some link =>
    refine (craft.load (h link rfl)).bind fun cell held' _ => .assume fun hcell =>
      .pure fun _ _ _ c hc => ?_
    cases hc
    exact hcell

theorem mem_held_of_stakes {record : StakeRecord Link} (h : record.Within held) :
    ∀ link ∈ record.stakes, link ∈ held :=
  fun link hlink => h.links link (by simp_all [StakeRecord.links])

theorem keeps_sharesOf {record : StakeRecord Link} (h : record.Within held) (delegator : Address) :
    craft.law.Keeps held (fun _ => True) (record.sharesOf delegator) fun _ _ _ => True := by
  refine (keeps_loadOption (mem_held_of_stakes h)).bind fun stakes held' _ =>
    .assume fun hstakes => ?_
  cases stakes with
  | none => exact .pure fun _ _ _ => trivial
  | some stakes =>
    refine (keeps_findDigest (hstakes stakes rfl) _).bind fun found _ _ => ?_
    cases found with
    | none => exact .pure fun _ _ _ => trivial
    | some shares =>
      dsimp only
      split
      · exact .pure fun _ _ _ => trivial
      · exact .throw _

theorem keeps_checked {record : StakeRecord Link} (h : ∀ link ∈ record.links, link ∈ held) :
    craft.law.Keeps held (fun _ => True) record.checked
      fun record' held' _ => record'.Within held' := by
  refine Law.Keeps.get.bind fun known held' hsub => ?_
  split
  · next hvalid =>
    exact .pure fun _ _ _ =>
      ⟨StakeRecord.validate_target hvalid, fun link hlink => hsub (h link hlink)⟩
  · exact .throw _

theorem keeps_within (n : Int) (otherwise : ArgumentFault) :
    craft.law.Keeps held (fun _ => True) (StakeRecord.within n otherwise) fun _ _ _ => True := by
  unfold StakeRecord.within
  split
  · exact .pure fun _ _ _ => trivial
  · exact .throw _

theorem keeps_linkNonEmpty {map : Cell} (h : craft.Owns held map) :
    craft.law.Keeps held (fun _ => True) (StakeRecord.linkNonEmpty map)
      fun link held' _ => ∀ l ∈ link, l ∈ held' := by
  refine Law.Keeps.ofExcept.bind fun size held₁ hsub₁ => .assume fun _ => ?_
  split
  · exact .pure fun _ _ _ => nofun
  · refine (craft.link (h.mono hsub₁)).bind fun link held₂ _ => .assume fun hlink =>
      .pure fun _ _ _ l hl => ?_
    cases hl
    exact hlink

theorem links_setStakes {record : StakeRecord Link} {stakes : Option Link}
    {delegated balance : Int64} (h : ∀ link ∈ record.links, link ∈ held)
    (hstakes : ∀ link ∈ stakes, link ∈ held) :
    ∀ link ∈ { record with stakes, delegatedShares := delegated, balance }.links, link ∈ held := by
  intro link hlink
  rcases List.mem_append.1 hlink with hlink | hlink
  · exact hstakes link (by simpa using hlink)
  · exact h link (List.mem_append.2 (.inr hlink))

/-- A condition that is checked on the way. -/
theorem keeps_guard {α : Type} {condition : Prop} [Decidable condition]
    {cause : ArgumentFault} {next : Unit → Attempt α} {post : α → Set Link → Knowledge → Prop}
    (h : craft.law.Keeps held (fun _ => True) (next ()) post) :
    craft.law.Keeps held (fun _ => True)
      (if condition then Attempt.refuse cause >>= next else next ()) post := by
  split
  · exact .throw _
  · exact h

/-- A number or an address. -/
theorem keeps_leaf (value : Value Link) (hcanonical : value.isCanonical Link.target?)
    (hplain : ∀ record, value = .peer record → False) (hlinks : value.links = []) :
    craft.law.Keeps held (fun _ => True) (liftM (Cell.make value) : Attempt Cell)
      fun cell held' _ => craft.Owns held' cell :=
  craft.make value (valid_of_plain hcanonical hplain) (by simp [hlinks])

/-- The record in which a map of delegators takes the place of the old one. -/
theorem keeps_setStakes {record : StakeRecord Link} (h : ∀ link ∈ record.links, link ∈ held)
    {stakes : Cell} (hstakes : craft.Owns held stakes) (delegatedShares balance : Int64) :
    craft.law.Keeps held (fun _ => True) (record.setStakes stakes delegatedShares balance)
      fun record' held' _ => record'.Within held' :=
  (keeps_linkNonEmpty hstakes).bind fun _ _ hsub => .assume fun hlink =>
    keeps_checked (links_setStakes (fun l hl => hsub (h l hl)) hlink)

/-- The record in which one delegator's shares have been changed. -/
theorem keeps_setShares {record : StakeRecord Link} (h : ∀ link ∈ record.links, link ∈ held)
    {stakes key : Cell} (hstakes : craft.Owns held stakes)
    (hkey : craft.Owns held key) (shares delegatedShares balance : Int64) :
    craft.law.Keeps held (fun _ => True)
      (record.setShares stakes key shares delegatedShares balance)
      fun record' held' _ => record'.Within held' := by
  unfold StakeRecord.setShares
  split
  · exact (keeps_erase hstakes).bind fun stakes' held₁ hsub₁ => .assume fun hstakes' =>
      keeps_setStakes (fun link hlink => hsub₁ (h link hlink)) hstakes' delegatedShares balance
  · refine (keeps_leaf (.integer shares) rfl (by rintro _ ⟨⟩) rfl).bind
      fun amount held₁ hsub₁ => .assume fun hamount => ?_
    refine (keeps_insert (hstakes.mono hsub₁) (hkey.mono hsub₁) hamount).bind
      fun stakes' held₂ hsub₂ => .assume fun hstakes' => ?_
    have hlinks : ∀ link ∈ record.links, link ∈ held₂ :=
      fun link hlink => hsub₂ (hsub₁ (h link hlink))
    exact keeps_setStakes hlinks hstakes' delegatedShares balance

theorem keeps_setDelegation {record : StakeRecord Link} (h : record.Within held)
    (delegator : Address) (shares : Int64) :
    craft.law.Keeps held (fun _ => True) (record.setDelegation delegator shares)
      fun record' held' _ => record'.Within held' := by
  rw [StakeRecord.setDelegation_eq]
  refine keeps_guard ((keeps_sharesOf h delegator).bind fun old held₁ hsub₁ => ?_)
  split
  · exact .pure fun _ _ _ => ⟨h.valid, fun link hlink => hsub₁ (h.links link hlink)⟩
  · refine (keeps_within _ _).bind fun change held₂ hsub₂ => (keeps_within _ _).bind
      fun delegatedShares held₃ hsub₃ => (keeps_within _ _).bind fun balance held₄ hsub₄ => ?_
    refine (keeps_leaf (.address delegator) rfl (by rintro _ ⟨⟩) rfl).bind
      fun key held₅ hsub₅ => .assume fun hkey => ?_
    have hsub : held ⊆ held₅ := hsub₁.trans (hsub₂.trans (hsub₃.trans (hsub₄.trans hsub₅)))
    have hlinks : ∀ held₆, held₅ ⊆ held₆ → ∀ link ∈ record.links, link ∈ held₆ :=
      fun _ hsub₆ link hlink => hsub₆ (hsub (h.links link hlink))
    refine (keeps_loadOption fun l hl => hsub (mem_held_of_stakes h l hl)).bind
      fun stakes held₆ hsub₆ => .assume fun hstakes => ?_
    -- The map to change is the one that the record has, or a new one.
    cases stakes with
    | some stakes =>
      exact keeps_setShares (hlinks held₆ hsub₆) (hstakes stakes rfl) (hkey.mono hsub₆) shares
        delegatedShares balance
    | none =>
      refine (keeps_map List.Pairwise.nil nofun).bind fun stakes held₇ hsub₇ =>
        .assume fun hstakes => ?_
      have hsub := hsub₆.trans hsub₇
      exact keeps_setShares (hlinks held₇ hsub) hstakes (hkey.mono hsub) shares
        delegatedShares balance

theorem keeps_setPeerShares {record : StakeRecord Link} (h : record.Within held) (shares : Int64) :
    craft.law.Keeps held (fun _ => True) (record.setPeerShares shares)
      fun record' held' _ => record'.Within held' := by
  unfold StakeRecord.setPeerShares
  refine keeps_guard ?_
  split
  · exact .pure fun _ _ _ => h
  · exact (keeps_within _ _).bind fun balance held' hsub =>
      keeps_checked fun link hlink => hsub (h.links link hlink)

theorem keeps_addReward {record : StakeRecord Link} (h : record.Within held) (amount : Int64) :
    craft.law.Keeps held (fun _ => True) (record.addReward amount)
      fun record' held' _ => record'.Within held' := by
  unfold StakeRecord.addReward
  exact keeps_guard ((keeps_within _ _).bind fun balance held' hsub =>
    keeps_checked fun link hlink => hsub (h.links link hlink))

theorem keeps_setMetadata {record : StakeRecord Link} (h : record.Within held)
    {metadata : Option Cell} (hmetadata : ∀ map ∈ metadata, craft.Owns held map) :
    craft.law.Keeps held (fun _ => True) (record.setMetadata metadata)
      fun record' held' _ => record'.Within held' := by
  have hlinks : ∀ {held' : Set Link} {metadata : Option Link}, held ⊆ held' →
      (∀ link ∈ metadata, link ∈ held') →
        ∀ link ∈ { record with metadata }.links, link ∈ held' := by
    intro held' metadata hsub hlink link hmem
    rcases List.mem_append.1 hmem with hmem | hmem
    · exact hsub (h.links link (List.mem_append.2 (.inl hmem)))
    · exact hlink link (by simpa using hmem)
  unfold StakeRecord.setMetadata
  cases metadata with
  | none => exact keeps_checked (hlinks subset_rfl nofun)
  | some map =>
    dsimp only
    split
    · exact .throw _
    · exact (keeps_linkNonEmpty (hmetadata map rfl)).bind fun link held' hsub =>
        .assume fun hlink => keeps_checked (hlinks hsub hlink)

/-- The metadata that publishes a host name are valid. -/
theorem keeps_hostMetadata (name : String) :
    craft.law.Keeps held (fun _ => True) (hostMetadata name)
      fun cell held' _ => craft.Owns held' cell := by
  refine (keeps_makeKeyword "url").bind fun key held₁ _ => .assume fun hkey => ?_
  refine (keeps_leaf (.text name) rfl (by rintro _ ⟨⟩) rfl).bind fun text held₂ hsub₂ =>
    .assume fun htext => ?_
  refine keeps_makeMap fun binding hbinding => ?_
  cases List.mem_singleton.1 hbinding
  exact ⟨hkey.mono hsub₂, htext⟩

/-- Every update makes a valid record of a valid record, or fails. -/
theorem keeps_update {record : StakeRecord Link} (h : record.Within held) {update : StakeUpdate}
    (hcell : ∀ map, update = .metadata (some map) → craft.Owns held map) :
    craft.law.Keeps held (fun _ => True) (update.apply record)
      fun record' held' _ => record'.Within held' := by
  cases update with
  | delegate delegator shares => exact keeps_setDelegation h delegator shares
  | peerShares shares => exact keeps_setPeerShares h shares
  | reward amount => exact keeps_addReward h amount
  | metadata map =>
    refine keeps_setMetadata h fun m hm => hcell m ?_
    rw [Option.mem_def.1 hm]
  | timestamp t =>
    -- No check of a record looks at its timestamp.
    refine .pure fun _ _ _ => ⟨?_, h.links⟩
    have hvalid := (StakeRecord.validate_eq_ok_iff record).1 h.valid
    exact (StakeRecord.validate_eq_ok_iff _).2 hvalid
  | host name =>
    cases name with
    | none => exact keeps_setMetadata h nofun
    | some name =>
      refine (keeps_hostMetadata name).bind fun cell held' hsub => .assume fun hcell => ?_
      refine keeps_setMetadata ⟨h.valid, fun link hlink => hsub (h.links link hlink)⟩ fun m hm => ?_
      cases hm
      exact hcell

/-! ### Reports -/

/-- Bindings of cells in use to cells in use. -/
def OwnsBindings (craft : Craft) (held : Set Link) (bindings : List (Cell × Cell)) : Prop :=
  ∀ binding ∈ bindings, craft.Owns held binding.1 ∧ craft.Owns held binding.2

theorem OwnsBindings.mono {held' : Set Link} {bindings : List (Cell × Cell)}
    (h : craft.OwnsBindings held bindings) (hsub : held ⊆ held') :
    craft.OwnsBindings held' bindings :=
  fun binding hbinding => ⟨(h binding hbinding).1.mono hsub, (h binding hbinding).2.mono hsub⟩

theorem OwnsBindings.append {first second : List (Cell × Cell)} (h : craft.OwnsBindings held first)
    (h' : craft.OwnsBindings held second) : craft.OwnsBindings held (first ++ second) := by
  intro binding hbinding
  rcases List.mem_append.1 hbinding with hbinding | hbinding
  · exact h binding hbinding
  · exact h' binding hbinding

theorem keeps_optionalBinding (name : String) {cell : Option Cell}
    (h : ∀ c ∈ cell, craft.Owns held c) :
    craft.law.Keeps held (fun _ => True) (Report.optionalBinding name cell)
      fun bindings held' _ => craft.OwnsBindings held' bindings := by
  cases cell with
  | none => exact .pure fun _ _ _ => nofun
  | some cell =>
    refine (keeps_makeKeyword name).bind fun key held' hsub => .assume fun hkey =>
      .pure fun _ _ _ binding hbinding => ?_
    cases List.mem_singleton.1 hbinding
    exact ⟨hkey, (h cell rfl).mono hsub⟩

theorem keeps_texts (texts : List String) :
    craft.law.Keeps held (fun _ => True)
      (texts.mapM fun text => (liftM (Cell.make (.text text)) : Attempt Cell))
      fun cells held' _ => ∀ cell ∈ cells, craft.Owns held' cell :=
  .mapM (fun (cell : Cell) held' => craft.Owns held' cell)
    (fun text _ _ _ => keeps_leaf (.text text) rfl (by rintro _ ⟨⟩) rfl)
    fun _ _ _ hsub h => h.mono hsub

/-- The map of the bindings found so far and that of an address. -/
theorem keeps_withAddress {bindings : List (Cell × Cell)}
    (hbindings : craft.OwnsBindings held bindings)
    {address : Option Cell} (haddress : ∀ c ∈ address, craft.Owns held c) :
    craft.law.Keeps held (fun _ => True) (do
      let address ← Report.optionalBinding "address" address
      liftM (Cell.makeMap (bindings ++ address)) : Attempt Cell)
      fun cell held' _ => craft.Owns held' cell :=
  (keeps_optionalBinding "address" haddress).bind fun _ _ hsub => .assume fun hbinding =>
    keeps_makeMap ((hbindings.mono hsub).append hbinding)

/-- The map of the bindings found so far, that of a trace and that of an address. -/
theorem keeps_withTrace {bindings : List (Cell × Cell)}
    (hbindings : craft.OwnsBindings held bindings)
    {trace : Option Cell} (htrace : ∀ c ∈ trace, craft.Owns held c)
    (address : Option Address) :
    craft.law.Keeps held (fun _ => True) (do
      let trace ← Report.optionalBinding "trace" trace
      match address with
      | some a => do
        let cell ← liftM (Cell.make (.address a))
        let address ← Report.optionalBinding "address" (some cell)
        liftM (Cell.makeMap (bindings ++ trace ++ address))
      | none => do
        let address ← Report.optionalBinding "address" none
        liftM (Cell.makeMap (bindings ++ trace ++ address)) : Attempt Cell)
      fun cell held' _ => craft.Owns held' cell := by
  refine (keeps_optionalBinding "trace" htrace).bind fun trace held₁ hsub₁ =>
    .assume fun htrace => ?_
  have hboth := (hbindings.mono hsub₁).append htrace
  cases address with
  | none => exact keeps_withAddress hboth nofun
  | some a =>
    refine (keeps_leaf (.address a) rfl (by rintro _ ⟨⟩) rfl).bind
      fun cell held₂ hsub₂ => .assume fun hcell => ?_
    refine keeps_withAddress (hboth.mono hsub₂) fun c hc => ?_
    cases hc
    exact hcell

/-- A report of valid cells is turned into a valid cell. -/
theorem keeps_toCell {report : Report} (hcode : craft.Owns held report.code)
    (hmessage : ∀ c ∈ report.message, craft.Owns held c) :
    craft.law.Keeps held (fun _ => True) report.toCell
      fun cell held' _ => craft.Owns held' cell := by
  unfold Report.toCell
  refine (keeps_makeKeyword "code").bind fun key held₁ hsub₁ => .assume fun hkey => ?_
  refine (keeps_optionalBinding "message" fun c hc => (hmessage c hc).mono hsub₁).bind
    fun message held₂ hsub₂ => .assume fun hmessage => ?_
  have hcodeBinding : craft.OwnsBindings held₂ [(key, report.code)] := by
    intro binding hbinding
    cases List.mem_singleton.1 hbinding
    exact ⟨hkey.mono hsub₂, hcode.mono (hsub₁.trans hsub₂)⟩
  have hbindings : craft.OwnsBindings held₂ ((key, report.code) :: message) :=
    hcodeBinding.append hmessage
  dsimp only
  by_cases hempty : report.trace.isEmpty
  · rw [if_pos hempty]
    have hnone : ∀ c ∈ (none : Option Cell), craft.Owns held₂ c := nofun
    exact keeps_withTrace hbindings hnone report.address
  · rw [if_neg hempty]
    refine (keeps_texts report.trace).bind fun texts held₃ hsub₃ => .assume fun htexts => ?_
    refine (keeps_makeVector htexts).bind fun trace held₄ hsub₄ => .assume fun hvector => ?_
    have hsome : ∀ c ∈ some trace, craft.Owns held₄ c := by
      rintro c ⟨⟩
      exact hvector
    exact keeps_withTrace (hbindings.mono (hsub₃.trans hsub₄)) hsome report.address

end Craft

end CellGraph
