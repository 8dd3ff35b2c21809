import CellGraph.Proofs.Session.Invariant

/-!
# What is written can be read

Whatever cell a user has come to have, its encoding can be read, in the same session or in another
one, out of the middle of a buffer as well.

* `Knowledge.embedded`: what is written inline for a link;
* `Cell.ReadBack`: a cell as it comes back from its encoding;
* `Cell.exists_read`: reading in context;
* `Session.read_encode`: any cell of any session, read in any session.
-/

namespace CellGraph

/-- The target of a link, if it is held in memory and small enough to be written inline. -/
def Knowledge.embedded (known : Knowledge) (link : Link) : Option Cell :=
  (known.resident link).filter Cell.isSmall

/--
The cell has come back with its encoding and its digest, is equal to what it was, and holds its
children where they were written inline. Its other links are soft, name the same digests, and hold
nothing.
-/
structure Cell.ReadBack (writer : Knowledge) (cell : Cell) (reader : Knowledge) (cell' : Cell) :
    Prop where
  encode : cell'.encode = cell.encode
  digest : cell'.digest = cell.digest
  equal : ∀ known, ((cell'.equal cell).run known).1 = true
  reread : cell.Reread writer.embedded cell'
  soft : ∀ link ∈ cell'.everyLink, link.target? = none → reader.resident link = none

/-- The form in which a cell is read again depends on what is inline below it. -/
theorem Link.Reread.congr {inline : Link → Option Cell} {link link' : Link}
    (h : link.Reread Link.inline? link')
    (heq : ∀ other ∈ link.everyLink, inline other = other.inline?) :
    link.Reread inline link' := by
  induction h with
  | @soft link label hinline =>
    exact .soft ((heq link link.self_mem_everyLink).trans hinline)
  | @direct link old new label pairs hinline hpairs ih =>
    refine .direct ((heq link link.self_mem_everyLink).trans hinline) fun pair hp => ?_
    refine ih pair hp fun other hother => heq other (Link.mem_everyLink.2 (.inr ?_))
    refine ⟨_, Link.target?_of_inline hinline, Cell.mem_everyLink.2 ⟨pair.1, ?_, hother⟩⟩
    rw [Cell.links, Cell.value, Value.links_mapLinks]
    exact List.mem_map_of_mem hp

theorem Cell.Reread.congr {inline : Link → Option Cell} {cell cell' : Cell}
    (h : cell.Reread Link.inline? cell')
    (heq : ∀ link ∈ cell.everyLink, inline link = link.inline?) : cell.Reread inline cell' :=
  Value.Alike.mono h fun link hlink _ hreread => hreread.congr fun other hother =>
    heq other (Cell.mem_everyLink.2 ⟨link, hlink, hother⟩)

namespace Cell

variable {cell : Cell}

/-- The encoding of a sound cell can be read wherever it stands. -/
theorem exists_read (hsound : cell.Sound) (known : Knowledge) (before after : Bytes) :
    ∃ cell' known', (read (before ++ cell.encode ++ after) before.length).run.run known =
        (.ok (cell', cell.encode.length), known') ∧
      cell.Reread Link.inline? cell' ∧ known'.resident = known.resident ∧
      ∀ link ∈ cell'.everyLink, known.next ≤ link.label := by
  have hdepth : cell.encode.length ≤ (before ++ cell.encode ++ after).length + 1 := by
    rw [List.length_append, List.length_append]
    omega
  obtain ⟨cell', hreads, hreread⟩ := reads_scan known.next hsound hdepth before.length
  have hle : before.length ≤ (before ++ cell.encode ++ after).length := by
    rw [List.append_assoc, List.length_append]
    exact Nat.le_add_right _ _
  have hdrop : (before ++ cell.encode ++ after).drop before.length = cell.encode ++ after := by
    rw [List.append_assoc, List.drop_left]
  have hrun : (read (before ++ cell.encode ++ after) before.length).run.run known =
      (.ok (cell', cell.encode.length), (cell'.noteRead.run
        { known with next := known.next + (before.length + cell.encode.length) }).2) := by
    rw [read_eq hle, hdrop, hreads after]
    dsimp only
    rw [Nat.add_sub_cancel_left]
  obtain ⟨part, rest, -, -, hfrom, -⟩ := readFrom_of_read hle (congrArg Prod.fst hrun)
  refine ⟨cell', _, hrun, hreread, ?_, fun link hlink => ?_⟩
  · exact (cell'.onlyNotes_noteRead _).resident_eq
  · have hwithin := (hfrom.laid.within link hlink).1
    exact (Nat.le_add_right _ _).trans hwithin

/-- A buffer that begins with the encoding of a sound cell decodes if nothing follows. -/
theorem decode_encode_append (hsound : cell.Sound) (known : Knowledge) (after : Bytes) :
    ∃ cell' known', (decode (cell.encode ++ after)).run.run known =
        (if after = [] then .ok cell' else .error (.badFormat (.trailingBytes after.length)),
          known') ∧
      (read (cell.encode ++ after) 0).run.run known =
        (.ok (cell', cell.encode.length), known') := by
  obtain ⟨cell', known', hread, -⟩ := exists_read hsound known [] after
  rw [List.nil_append, List.length_nil] at hread
  refine ⟨cell', known', ?_, hread⟩
  rw [decode_eq, hread]
  dsimp only
  rw [List.length_append, Nat.add_sub_cancel_left]
  by_cases h : after = []
  · rw [if_pos h, h, List.length_nil, Nat.add_zero, if_pos rfl]
  · have hlength := List.length_pos_iff.2 h
    rw [if_neg h, if_neg (by omega)]

end Cell

/-- What soft links come to hold is not written inline. -/
theorem Coherent.embedded_eq {good : Cell → Prop} {held : Set Link} {known : Knowledge}
    (h : Coherent good held known) (link : Link) : known.embedded link = link.inline? := by
  cases link with
  | direct label target =>
    rw [Knowledge.embedded, Knowledge.resident, Link.inline?, Option.filter_some]
  | soft label digest =>
    rw [Knowledge.embedded, Link.inline?]
    cases hkept : known.resident (.soft label digest) with
    | none => rfl
    | some cell =>
      have hlarge := (h.kept label cell hkept).2.1
      rw [Option.filter_some, hlarge]
      rfl

namespace Session

variable {ι κ : Type} [DecidableEq ι] [DecidableEq κ] {writer : Session ι} {reader : Session κ}

omit [DecidableEq ι] [DecidableEq κ] in
theorem readBack_of_reread (h : writer.Sound) (h' : reader.Sound) {cell cell' : Cell}
    {known : Knowledge} (hreread : cell.Reread Link.inline? cell')
    (hresident : known.resident = reader.known.resident)
    (hlabel : ∀ link ∈ cell'.everyLink, reader.known.next ≤ link.label) :
    cell.ReadBack writer.known known cell' := by
  refine ⟨hreread.encode_eq, congrArg Digest.of hreread.encode_eq, hreread.agrees,
    hreread.congr fun link _ => h.coherent.embedded_eq link, fun link hlink htarget => ?_⟩
  rw [hresident]
  cases link with
  | direct => cases htarget
  | soft label digest =>
    -- What is kept is filed under labels that were used before, and this one is new.
    cases hkept : reader.known.resident (.soft label digest) with
    | none => rfl
    | some held =>
      exact absurd (h'.coherent.kept label held hkept).1 (Nat.not_lt.2 (hlabel _ hlink))

/--
The encoding of every cell that can come about is read back, from any place in any buffer, in any
session. As a whole buffer it can be decoded, unless anything follows it.
-/
theorem read_encode (hwriter : writer.Reached) (hreader : reader.Reached) {cell : Cell}
    (hcell : cell ∈ writer.cells) :
    (∀ before after : Bytes, ∃ cell' known',
      (Cell.read (before ++ cell.encode ++ after) before.length).run.run reader.known =
          (.ok (cell', cell.encode.length), known') ∧
        cell.ReadBack writer.known known' cell') ∧
      (∃ cell' known', (Cell.decode cell.encode).run.run reader.known = (.ok cell', known') ∧
        cell.ReadBack writer.known known' cell') ∧
      ∀ after : Bytes, after ≠ [] →
        ((Cell.decode (cell.encode ++ after)).run.run reader.known).1 =
          .error (.badFormat (.trailingBytes after.length)) := by
  have hsound := hwriter.inv.toSound.cell hcell
  have hread : ∀ before after : Bytes, ∃ cell' known',
      (Cell.read (before ++ cell.encode ++ after) before.length).run.run reader.known =
          (.ok (cell', cell.encode.length), known') ∧
        cell.ReadBack writer.known known' cell' := by
    intro before after
    obtain ⟨cell', known', hrun, hreread, hresident, hlabel⟩ :=
      Cell.exists_read hsound reader.known before after
    exact ⟨cell', known', hrun, readBack_of_reread hwriter.inv.toSound hreader.inv.toSound hreread
      hresident hlabel⟩
  refine ⟨hread, ?_, fun after hafter => ?_⟩
  · obtain ⟨cell', known', hdecode, hrun⟩ := Cell.decode_encode_append hsound reader.known []
    rw [List.append_nil] at hdecode hrun
    obtain ⟨cell'', known'', hrun', hback⟩ := hread [] []
    rw [List.nil_append, List.append_nil, List.length_nil, hrun] at hrun'
    cases hrun'
    exact ⟨cell', known', hdecode, hback⟩
  · obtain ⟨cell', known', hdecode, -⟩ := Cell.decode_encode_append hsound reader.known after
    rw [hdecode, if_neg hafter]

/-! ### A vector of an inline child and a soft link -/

/-- A vector that holds an integer and names a digest. -/
def mixture : Cell :=
  .mk 3 (.vector [.direct 1 (.mk 0 (.integer 5)), .soft 2 Digest.absent])

/-- A user without a store who has made the vector. -/
def mixed : Session Empty :=
  (((Session.perform { stores := nofun } (.cells (.integer 5))).perform
    (.cells (.link (.mk 0 (.integer 5))))).perform (.cells (.soft Digest.absent))).perform
      (.cells (.vectorOf [.direct 1 (.mk 0 (.integer 5)), .soft 2 Digest.absent]))

theorem reached_mixed : mixed.Reached := by
  have hempty : ∀ index : Empty, index ∈ [] := nofun
  simpa only [mixed, List.foldl] using
    (Reached.start (fun index : Empty => nomatch index) nofun).requests hempty
      [.cells (.integer 5), .cells (.link (.mk 0 (.integer 5))), .cells (.soft Digest.absent),
        .cells (.vectorOf [.direct 1 (.mk 0 (.integer 5)), .soft 2 Digest.absent])]
      (by decide +kernel)
      ⟨nofun, mem_items_of_places [0] rfl, nofun, mem_items_of_places [1, 2] rfl, trivial⟩

/-- The vector is read back from the middle of a buffer, and not decoded if a byte follows it. -/
theorem mixture_read_back :
    mixture ∈ mixed.cells ∧
      (∃ cell' known', (Cell.read ([1, 2] ++ mixture.encode ++ [3]) 2).run.run mixed.known =
          (.ok (cell', mixture.encode.length), known') ∧
        mixture.ReadBack mixed.known known' cell') ∧
      ([3] : Bytes) ≠ [] ∧
      ((Cell.decode (mixture.encode ++ [3])).run.run mixed.known).1 =
        .error (.badFormat (.trailingBytes 1)) := by
  have hmixture : mixture ∈ mixed.cells :=
    .inl (List.mem_cons_of_mem _ (List.mem_cons_of_mem _ (List.mem_cons_of_mem _
      (List.mem_cons_self ..))))
  obtain ⟨hread, -, htrailing⟩ := read_encode reached_mixed reached_mixed hmixture
  exact ⟨hmixture, hread [1, 2] [3], by decide, htrailing [3] (by decide)⟩

end Session

end CellGraph
