import CellGraph.Proofs.Cell.ReadBack
import CellGraph.Proofs.Store.Entries

/-!
# What a store gives

A store with sound entries gives the cell of an entry whenever it is asked, with new labels if it
holds encodings. A soft link takes that cell, so all that can go wrong in following a link is that
there is no entry.

* `Store.read`: what a store gives for a digest;
* `Store.Keyed.exists_read`, `Store.Keyed.of_read`, `Store.Sound.read_insert`: entries and writing;
* `StoreAction.run_get`, `StoreAction.run_lookup`, `Link.run_accept`: the computations, in terms of
  `Store.read`;
* `StoreAction.run_resolve_of_none`, `StoreAction.run_resolve_of_some`: following a link;
* `StoreAction.run_adopt`, `StoreAction.run_unlessAdopted`, `StoreAction.run_write`: taking over a status, and writing;
* `StoreAction.Reads`: computations that write nothing.
-/

namespace CellGraph

open StoreAction

/-- What a store gives for a digest to someone who knows this much. -/
def Store.read (store : Store) (key : Digest) (known : Knowledge) :
    Except StoreFault (Option Cell) :=
  ((StoreAction.get key).run.run ⟨known, store, [], []⟩).1

theorem StoreAction.run_get_table (key : Digest) {known : Knowledge} {rows : Index Bytes Row}
    {novel : List Digest} {journal : List Store} :
    (StoreAction.get key).run.run ⟨known, .table rows, novel, journal⟩ =
      match Index.find? key.bytes rows with
      | none => (.ok none, ⟨known, .table rows, novel, journal⟩)
      | some row =>
        match (Cell.decode row.encoding).run.run known with
        | (.ok cell, known) => (.ok (some cell), ⟨known, .table rows, novel, journal⟩)
        | (.error fault, known) =>
          (.error (.corrupt key (.undecodable fault)), ⟨known, .table rows, novel, journal⟩) := by
  unfold StoreAction.get
  rw [run_run_bind]
  show StateT.run (ExceptT.run (match Index.find? key.bytes rows with
    | none => Pure.pure none
    | some row => _)) _ = _
  cases Index.find? key.bytes rows with
  | none => rfl
  | some row =>
    dsimp only
    have hcalc : (ofCalc (Cell.decode row.encoding).run).run.run
        ⟨known, .table rows, novel, journal⟩ =
          (.ok ((Cell.decode row.encoding).run.run known).1,
            ⟨((Cell.decode row.encoding).run.run known).2, .table rows, novel, journal⟩) := rfl
    rw [run_run_bind, hcalc]
    rcases (Cell.decode row.encoding).run.run known with ⟨_ | _, _⟩ <;> rfl

/-- Asking a store changes nothing but labels, and what is noted of digests and encodings. -/
theorem StoreAction.run_get (key : Digest) (site : Site) :
    ∃ next noted, site.known.next ≤ next ∧ Knowledge.Notes { site.known with next } noted ∧
      (StoreAction.get key).run.run site =
        (site.store.read key site.known, { site with known := noted }) := by
  obtain ⟨known, store, novel, journal⟩ := site
  cases store with
  | memory entries => exact ⟨known.next, known, Nat.le_refl _, .refl _, rfl⟩
  | table rows =>
    rw [Store.read, StoreAction.run_get_table, StoreAction.run_get_table]
    cases Index.find? key.bytes rows with
    | none => exact ⟨known.next, known, Nat.le_refl _, .refl _, rfl⟩
    | some row =>
      obtain ⟨next, hnext, hnotes⟩ := Cell.notes_decode row.encoding known
      dsimp only
      refine ⟨next, _, hnext, hnotes, ?_⟩
      rcases (Cell.decode row.encoding).run.run known with ⟨_ | _, _⟩ <;> rfl

namespace Store

variable {store : Store} {key : Digest} {encoding : Bytes} {status : Status} {known : Knowledge}

theorem read_memory (entries : Index Digest (Cell × Status)) (key : Digest) (known : Knowledge) :
    (memory entries).read key known = .ok ((Index.find? key entries).map Prod.fst) := rfl

theorem read_table (rows : Index Bytes Row) (key : Digest) (known : Knowledge) :
    (table rows).read key known =
      match Index.find? key.bytes rows with
      | none => .ok none
      | some row =>
        match ((Cell.decode row.encoding).run.run known).1 with
        | .ok cell => .ok (some cell)
        | .error fault => .error (.corrupt key (.undecodable fault)) := by
  rw [read, StoreAction.run_get_table]
  cases Index.find? key.bytes rows with
  | none => rfl
  | some row =>
    dsimp only
    rcases (Cell.decode row.encoding).run.run known with ⟨_ | _, _⟩ <;> rfl

/-- A row of a table that can be read is an entry. -/
theorem Legible.find?_table {rows : Index Bytes Row} (h : (table rows).Legible) (key : Digest) :
    ((table rows).find? key).map Prod.fst = (Index.find? key.bytes rows).map Row.encoding := by
  rw [find?]
  cases hrow : Index.find? key.bytes rows with
  | none => rfl
  | some row =>
    obtain ⟨status, hstatus⟩ := h rows key.bytes row rfl hrow
    simp only [hstatus, parseStatus_toNat]
    rfl

theorem Legible.read_of_none (h : store.Legible) (hentry : store.find? key = none)
    (known : Knowledge) : store.read key known = .ok none := by
  cases store with
  | memory entries =>
    rw [read_memory, Option.map_eq_none_iff.1 hentry]
    rfl
  | table rows =>
    have hrow := h.find?_table key
    rw [hentry] at hrow
    rw [read_table, Option.map_eq_none_iff.1 hrow.symm]

/-- The cell of an entry can be read. -/
theorem Keyed.exists_read (h : store.Keyed) (hentry : store.find? key = some (encoding, status))
    (known : Knowledge) :
    ∃ cell, store.read key known = .ok (some cell) ∧ cell.encode = encoding := by
  cases store with
  | memory entries =>
    obtain ⟨entry, hfind, heq⟩ := Option.map_eq_some_iff.1 hentry
    cases heq
    exact ⟨entry.1, by rw [read_memory, hfind]; rfl, rfl⟩
  | table rows =>
    have hrow := h.legible.find?_table key
    rw [hentry] at hrow
    obtain ⟨row, hfind, rfl⟩ := Option.map_eq_some_iff.1 hrow.symm
    obtain ⟨cell, hsound, hencode⟩ := h.cell key _ status hentry
    obtain ⟨found, noted, hdecode, -⟩ := Cell.decode_encode_append hsound known []
    rw [List.append_nil, if_pos rfl, hencode] at hdecode
    have hread := (Cell.readFrom_of_decode (congrArg Prod.fst hdecode)).1
    exact ⟨found, by rw [read_table, hfind]; dsimp only; rw [hdecode],
      hread.encode⟩

theorem Sound.exists_read (h : store.Sound) (hentry : store.find? key = some (encoding, status))
    (known : Knowledge) :
    ∃ cell, store.read key known = .ok (some cell) ∧ cell.encode = encoding :=
  h.keyed.exists_read hentry known

/-- What is read is the cell of an entry. -/
theorem Keyed.of_read (h : store.Keyed) {cell : Cell}
    (hread : store.read key known = .ok (some cell)) :
    ∃ status, store.find? key = some (cell.encode, status) := by
  cases hentry : store.find? key with
  | none =>
    rw [h.legible.read_of_none hentry] at hread
    cases hread
  | some entry =>
    obtain ⟨found, hfound, hencode⟩ := h.exists_read hentry known
    rw [hfound] at hread
    cases hread
    exact ⟨entry.2, by rw [hencode]⟩

theorem Sound.of_read (h : store.Sound) {cell : Cell}
    (hread : store.read key known = .ok (some cell)) :
    ∃ status, store.find? key = some (cell.encode, status) :=
  h.keyed.of_read hread

/-- What is read for an entry stays the same when something is written. -/
theorem Sound.read_insert (h : store.Sound) {cell : Cell} {other : Digest}
    (hentry : (store.find? other).isSome) (known : Knowledge) :
    (store.insert cell encoding key status).2.read other known = store.read other known := by
  cases store with
  | memory entries =>
    obtain ⟨entry, hother⟩ := Option.isSome_iff_exists.1 (Option.isSome_map.symm.trans hentry)
    cases hkey : Index.find? key entries with
    | none =>
      have hne : ¬(key == other) := fun heq => by
        rw [beq_iff_eq.1 heq, hother] at hkey
        cases hkey
      simp only [Store.insert, hkey, read_memory, Index.find?_insert, if_neg hne]
    | some held =>
      simp only [Store.insert, hkey, read_memory, Index.find?_update]
      split
      · rw [Option.map_map]
        rfl
      · rfl
  | table rows =>
    have hrow := h.legible.find?_table other
    obtain ⟨⟨bytes, held⟩, hfind⟩ := Option.isSome_iff_exists.1 hentry
    rw [hfind] at hrow
    obtain ⟨row, hother, -⟩ := Option.map_eq_some_iff.1 hrow.symm
    cases hkey : Index.find? key.bytes rows with
    | none =>
      have hne : ¬(key.bytes == other.bytes) := fun heq => by
        rw [beq_iff_eq.1 heq, hother] at hkey
        cases hkey
      simp only [Store.insert, hkey, read_table, Index.find?_insert, if_neg hne]
    | some old =>
      obtain ⟨previous, hprevious⟩ := h.row rows key.bytes old rfl hkey
      simp only [Store.insert, hkey, hprevious, parseStatus_toNat, read_table, Index.find?_update,
        hother]
      by_cases heq : key.bytes == other.bytes
      · simp only [if_pos heq, Option.map_some]
      · simp only [if_neg heq]

end Store

/-- Looking up an entry gives the cell that the store gives for it. -/
theorem StoreAction.run_lookup_of_keyed {site : Site} (hkeyed : site.store.Keyed) {key : Digest}
    {encoding : Bytes} {status : Status}
    (hentry : site.store.find? key = some (encoding, status)) :
    ∃ cell next noted, site.known.next ≤ next ∧ Knowledge.Notes { site.known with next } noted ∧
      site.store.read key site.known = .ok (some cell) ∧ cell.encode = encoding ∧
      (lookup key).run.run site = (.ok (some cell), { site with known := noted }) := by
  obtain ⟨cell, hread, hencode⟩ := hkeyed.exists_read hentry site.known
  obtain ⟨next, noted, hnext, hnotes, hget⟩ := run_get key site
  have hdigest : (cell.hash.run noted).1 = key :=
    (cell.fst_hash noted).trans ((congrArg Digest.of hencode).trans (hkeyed.key _ _ _ hentry).symm)
  have hhash : (ofCalc cell.hash).run.run { site with known := noted } =
      (.ok (cell.hash.run noted).1, { site with known := (cell.hash.run noted).2 }) := rfl
  refine ⟨cell, next, _, hnext, hnotes.trans (cell.onlyNotes_hash noted), hread, hencode, ?_⟩
  rw [lookup, run_run_bind, hget, hread]
  dsimp only
  rw [run_run_bind, hhash]
  dsimp only
  rw [if_pos hdigest]
  rfl

theorem StoreAction.run_lookup {site : Site} (hsound : site.store.Sound) {key : Digest}
    {encoding : Bytes} {status : Status}
    (hentry : site.store.find? key = some (encoding, status)) :
    ∃ cell next noted, site.known.next ≤ next ∧ Knowledge.Notes { site.known with next } noted ∧
      site.store.read key site.known = .ok (some cell) ∧ cell.encode = encoding ∧
      (lookup key).run.run site = (.ok (some cell), { site with known := noted }) :=
  run_lookup_of_keyed hsound.keyed hentry

/-- A link takes a cell with the right digest, and keeps it if it is too large to be inline. -/
theorem Link.run_accept {link : Link} {cell : Cell} (h : cell.digest = link.digest)
    (known : Knowledge) :
    ∃ noted, known.Notes noted ∧ (link.accept (some cell)).run.run known =
      (.ok cell,
        (if cell.isSmall then noted else noted.keep link cell).advance link .verified) := by
  refine ⟨(cell.embeds.run (cell.hash.run known).2).2,
    (cell.onlyNotes_hash known).trans (cell.onlyNotes_embeds _), ?_⟩
  have hhash : (cell.hash.run known).1 = link.digest := (cell.fst_hash known).trans h
  have hembeds : (cell.embeds.run (cell.hash.run known).2).1 = cell.isSmall := rfl
  rw [accept, run_run_bind, run_run_liftM]
  dsimp only
  rw [if_neg (not_not.2 hhash), run_run_bind, run_run_liftM]
  dsimp only
  rw [hembeds]
  cases cell.isSmall <;> rfl

/-! ### Following a link -/

namespace StoreAction

variable {site : Site} {link : Link}

/-- A link that holds its target asks nobody. -/
theorem run_resolve_of_resident {cell : Cell} (h : site.known.resident link = some cell) :
    (resolve link).run.run site = (.ok cell, site) := by
  rw [resolve, run_run_bind, run_run_getThe]
  dsimp only
  rw [h]
  rfl

/-- A link that does not hold its target asks the store for it. -/
theorem run_resolve (h : site.known.resident link = none) :
    (resolve link).run.run site =
      (StoreAction.get link.digest >>= fun found =>
        ofAttempt (link.accept found)).run.run site := by
  rw [resolve, run_run_bind, run_run_getThe]
  dsimp only
  rw [h]

/-- A link without an entry cannot be followed, and nothing has changed but labels and notes. -/
theorem run_resolve_of_none (hkeyed : site.store.Keyed) (h : site.known.resident link = none)
    (hentry : site.store.find? link.digest = none) :
    ∃ next noted, site.known.next ≤ next ∧ Knowledge.Notes { site.known with next } noted ∧
      (resolve link).run.run site =
        (.error (.cell (.missingData link.digest)), { site with known := noted }) := by
  obtain ⟨next, noted, hnext, hnotes, hget⟩ := run_get link.digest site
  refine ⟨next, noted, hnext, hnotes, ?_⟩
  rw [run_resolve h, run_run_bind, hget, hkeyed.legible.read_of_none hentry]
  rfl

/-- A link with an entry takes the cell that the store gives for it. -/
theorem run_resolve_of_some (hkeyed : site.store.Keyed) (h : site.known.resident link = none)
    {encoding : Bytes} {status : Status}
    (hentry : site.store.find? link.digest = some (encoding, status)) :
    ∃ cell next noted, site.known.next ≤ next ∧ Knowledge.Notes { site.known with next } noted ∧
      site.store.read link.digest site.known = .ok (some cell) ∧
      (resolve link).run.run site = (.ok cell, { site with
        known :=
          (if cell.isSmall then noted else noted.keep link cell).advance link .verified }) := by
  obtain ⟨cell, hread, hencode⟩ := hkeyed.exists_read hentry site.known
  obtain ⟨next, noted, hnext, hnotes, hget⟩ := run_get link.digest site
  have hdigest : cell.digest = link.digest :=
    (congrArg Digest.of hencode).trans (hkeyed.key _ _ _ hentry).symm
  obtain ⟨noted', hnotes', haccept⟩ := Link.run_accept hdigest noted
  refine ⟨cell, next, noted', hnext, hnotes.trans hnotes', hread, ?_⟩
  rw [run_resolve h, run_run_bind, hget, hread]
  show ((((link.accept (some cell)).run.run noted).1.mapError StoreFault.cell),
    { site with known := ((link.accept (some cell)).run.run noted).2 }) = _
  rw [haccept]
  rfl

/-! ### Taking over a status, and writing -/

variable {key : Digest} {goal : Status}

/-- Taking over the status of an entry, if that is high enough. -/
theorem run_adopt (hlegible : site.store.Legible) :
    (adopt link key goal).run.run site =
      match site.store.find? key with
      | some (_, status) =>
        if goal ≤ status then (.ok true, { site with known := site.known.advance link status })
        else (.ok false, site)
      | none => (.ok false, site) := by
  have hstatus : (StoreAction.status? key).run.run site =
      (.ok ((site.store.find? key).map Prod.snd), site) := by
    rw [StoreAction.status?, run_run_bind, run_run_getThe]
    dsimp only
    rw [hlegible.status?_eq]
    rfl
  rw [adopt, run_run_bind, hstatus]
  cases site.store.find? key with
  | none => rfl
  | some entry =>
    obtain ⟨encoding, status⟩ := entry
    dsimp only [Option.map_some]
    split <;> rfl

/-- A link takes over a status that is high enough, or there is none and the visit is made. -/
theorem run_unlessAdopted (hlegible : site.store.Legible) (link : Link) (key : Digest)
    (goal : Status) (visit : StoreAction Unit) :
    (∃ encoding status, site.store.find? key = some (encoding, status) ∧ goal ≤ status ∧
        (do unless ← adopt link key goal do visit : StoreAction Unit).run.run site =
          (.ok (), { site with known := site.known.advance link status })) ∨
      (∀ encoding status, site.store.find? key = some (encoding, status) → status < goal) ∧
        (do unless ← adopt link key goal do visit : StoreAction Unit).run.run site =
          visit.run.run site := by
  rw [run_run_bind, run_adopt hlegible]
  cases site.store.find? key with
  | none => exact .inr ⟨nofun, rfl⟩
  | some entry =>
    obtain ⟨encoding, status⟩ := entry
    dsimp only
    by_cases hle : goal ≤ status
    · rw [if_pos hle]
      exact .inl ⟨encoding, status, rfl, hle, rfl⟩
    · rw [if_neg hle]
      refine .inr ⟨?_, rfl⟩
      rintro _ _ ⟨⟩
      exact not_le.1 hle

/-- Writing a cell under its digest. -/
theorem run_write (hlegible : site.store.Legible) (cell : Cell) :
    (write cell cell.encode key goal).run.run site =
      (.ok ((site.store.find? key).map Prod.snd),
        { known := (cell.noteDigest.run site.known).2
          store := (site.store.insert cell cell.encode key goal).2
          novel := site.novel
          journal := (site.store.insert cell cell.encode key goal).2 :: site.journal }) := by
  have hfst := hlegible.insert_fst cell cell.encode key goal
  have hnote : (ofCalc cell.noteDigest).run.run site =
    (.ok (), { site with known := (cell.noteDigest.run site.known).2 }) := rfl
  rw [write, run_run_bind, hnote]
  dsimp only
  rw [run_run_bind, run_run_getThe]
  dsimp only
  rw [hfst]
  rfl

/-! ### Computations that write nothing -/

/-- The computation leaves the store as it is. -/
def Reads {α : Type} (action : StoreAction α) : Prop :=
  ∀ site : Site, (action.run.run site).2.store = site.store

namespace Reads

variable {α β : Type}

theorem pure (a : α) : Reads (Pure.pure a) := fun _ => rfl

theorem throw (fault : StoreFault) : Reads (MonadExcept.throw fault : StoreAction α) := fun _ => rfl

theorem bind {first : StoreAction α} {next : α → StoreAction β} (hfirst : Reads first)
    (hnext : ∀ a, Reads (next a)) : Reads (first >>= next) := by
  intro site
  have hstore := hfirst site
  rw [run_run_bind]
  rcases hrun : first.run.run site with ⟨fault | a, site'⟩ <;> rw [hrun] at hstore
  · exact hstore
  · exact (hnext a site').trans hstore

theorem ofCalc (step : Calc α) : Reads (StoreAction.ofCalc step) := fun _ => rfl

theorem ofAttempt (attempt : Attempt α) : Reads (StoreAction.ofAttempt attempt) := fun _ => rfl

theorem get (key : Digest) : Reads (StoreAction.get key) := by
  intro site
  obtain ⟨_, _, -, -, hrun⟩ := run_get key site
  rw [hrun]

theorem lookup (key : Digest) : Reads (StoreAction.lookup key) := by
  refine (get key).bind fun found => ?_
  cases found with
  | none => exact pure none
  | some cell =>
    refine (ofCalc cell.hash).bind fun actual => ?_
    split
    · exact pure _
    · exact throw _

theorem resolve (link : Link) : Reads (StoreAction.resolve link) := by
  intro site
  cases hresident : site.known.resident link with
  | none =>
    rw [run_resolve hresident]
    exact ((get link.digest).bind fun found => ofAttempt (link.accept found)) site
  | some cell => rw [run_resolve_of_resident hresident]

end Reads

end StoreAction

end CellGraph
