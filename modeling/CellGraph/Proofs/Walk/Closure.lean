import CellGraph.Proofs.Session.Invariant

/-!
# How far stores are closed

What an entry names by digest is in the store as well, with one exception for each of two shortcuts.
A link that another store has brought to a status is not walked again, so that what it names may be
there only. And a small cell that a soft link leads to is not written again, so that it may have the
lower status with which it was once written alone.

* `Session.Inv.backed`: what stands behind the status of a link;
* `Session.closed_or_elsewhere`: several stores;
* `Session.closed_at_status`: one store.
-/

namespace CellGraph.Session

variable {ι : Type} {session : Session ι}

/-- What a link with a status names is in one of the stores. -/
theorem Inv.backed (h : session.Inv) (hinj : Set.InjOn Digest.of session.encodings) {link : Link}
    (hlink : link ∈ session.links) {status : Status} (hstored : .stored ≤ status)
    (hle : status ≤ session.known.statusAt link.label) {digest : Digest}
    (hnamed : digest ∈ link.named) : ∃ index, (session.stores index).Backs digest status := by
  -- The link that a status is left to has a lower rank, so the question is not passed on for ever.
  induction hrank : link.rank using Nat.strong_induction_on generalizing link with
  | _ rank ih =>
    obtain ⟨index, hindex⟩ := h.raised_by link.label (hstored.trans hle)
    have hraised : status ≤ session.raised index link.label := hindex.symm ▸ hle
    rcases h.settled hinj index link hlink (hstored.trans hraised) digest hnamed with
      hbacks | ⟨other, hother, hlt, hnamed', hle'⟩
    · exact ⟨index, hbacks.mono (.refl _) hraised⟩
    · exact ih other.rank (hrank ▸ hlt) hother (hraised.trans hle') hnamed' rfl

/-- A link has been brought to a status, but not by this store. -/
structure Elsewhere (session : Session ι) (index : ι) (link : Link) : Prop where
  here : session.raised index link.label < .stored
  there : ∃ other, other ≠ index ∧ .stored ≤ session.raised other link.label

/--
What a link with a status names is in a store, unless only others have brought the link to it.
-/
theorem Inv.named_or_elsewhere (h : session.Inv) (hinj : Set.InjOn Digest.of session.encodings)
    (index : ι) {link : Link} (hlink : link ∈ session.links)
    (hstored : .stored ≤ session.known.statusAt link.label) {digest : Digest}
    (hnamed : digest ∈ link.named) :
    (session.stores index).Backs digest .stored ∨
      ∃ other ∈ session.links, digest ∈ other.named ∧ session.Elsewhere index other := by
  induction hrank : link.rank using Nat.strong_induction_on generalizing link with
  | _ rank ih =>
    by_cases hhere : .stored ≤ session.raised index link.label
    · rcases h.settled hinj index link hlink hhere digest hnamed with
        hbacks | ⟨other, hother, hlt, hnamed', hle⟩
      · exact .inl (hbacks.mono (.refl _) hhere)
      · exact ih other.rank (hrank ▸ hlt) hother (hhere.trans hle) hnamed' rfl
    · obtain ⟨other, hother⟩ := h.raised_by link.label hstored
      refine .inr ⟨link, hlink, hnamed, not_le.1 hhere, other, ?_, hother.symm ▸ hstored⟩
      rintro rfl
      exact hhere (hother.symm ▸ hstored)

variable [DecidableEq ι]

/--
Every digest that an entry names has an entry in the same store, unless it is named by a link that
this store has never brought to a status, while another one has. Then another store has it.
-/
theorem closed_or_elsewhere (h : session.Reached) (hinj : Set.InjOn Digest.of session.encodings)
    {index : ι} {key : Digest} {encoding : Bytes} {status : Status}
    (hentry : (session.stores index).find? key = some (encoding, status)) {digest : Digest}
    (hnamed : digest ∈ encoding.named) :
    ((session.stores index).find? digest).isSome ∨
      (∃ link ∈ session.links, digest ∈ link.named ∧ session.Elsewhere index link) ∧
        ∃ other, other ≠ index ∧ ((session.stores other).find? digest).isSome := by
  have hstored := (h.inv.store index).stored key encoding status hentry
  have hsome : ∀ {other : ι} {s : Status}, (session.stores other).Backs digest s →
      ((session.stores other).find? digest).isSome := by
    rintro other s ⟨found, held, hfound, -⟩
    rw [hfound]
    rfl
  rcases h.inv.closed hinj index key encoding status hentry digest hnamed with
    hbacks | ⟨link, hlink, -, hnamed', hle⟩
  · exact .inl (hsome hbacks)
  · rcases h.inv.named_or_elsewhere hinj index hlink (hstored.trans hle) hnamed' with hbacks | helse
    · exact .inl (hsome hbacks)
    · obtain ⟨other, hother⟩ := h.inv.backed hinj hlink hstored hle hnamed'
      by_cases heq : other = index
      · exact .inl (heq ▸ hsome hother)
      · exact .inr ⟨helse, other, heq, hsome hother⟩

/-! ### A vector that is persisted in two stores -/

theorem stored_le_stored : Status.stored ≤ .stored := le_rfl

theorem stored_le_persisted : Status.stored ≤ .persisted := by decide

/-- The goal of storing a cell. -/
def toStored : Goal := ⟨.stored, stored_le_stored⟩

/-- The goal of persisting a cell. -/
def toPersisted : Goal := ⟨.persisted, stored_le_persisted⟩

/-- A blob that is too large to be inline. -/
def largeBlob : Cell := .mk 0 (.blob (List.replicate 200 1))

/-- A vector of that blob. -/
def blobVector : Cell := .mk 2 (.vector [.direct 1 largeBlob])

/-- A memory store and a table, and a user who has made the vector. -/
def twoStores : Session Bool :=
  (Session.perform { stores := fun index => if index then .emptyTable else .emptyMemory }
    (.cells (.blob (List.replicate 200 1)))).perform (.cells (.vector [largeBlob]))

/-- The vector has been persisted in the memory store first, and then in the table. -/
def persistedTwice : Session Bool :=
  (twoStores.perform (.store false (.make ⟨.persisted, by decide⟩ blobVector))).perform
    (.store true (.make ⟨.persisted, by decide⟩ blobVector))

theorem mem_bools (index : Bool) : index ∈ [false, true] := by cases index <;> decide

set_option maxRecDepth 20000 in
theorem reached_persistedTwice : persistedTwice.Reached := by
  have hempty : ∀ index : Bool,
      (if index then Store.emptyTable else .emptyMemory) = .emptyMemory ∨
        (if index then Store.emptyTable else .emptyMemory) = .emptyTable := by
    intro index
    cases index
    · exact .inl rfl
    · exact .inr rfl
  have hvector : ∀ item ∈ [Item.cell blobVector], item ∈ twoStores.items :=
    mem_items_of_places [1] rfl
  simpa only [persistedTwice, twoStores, List.foldl] using
    (Reached.start _ hempty).requests mem_bools
      [.cells (.blob (List.replicate 200 1)), .cells (.vector [largeBlob]),
        .store false (.make ⟨.persisted, by decide⟩ blobVector),
        .store true (.make ⟨.persisted, by decide⟩ blobVector)]
      (by decide +kernel)
      ⟨nofun, mem_items_of_places [0] rfl, hvector,
        fun item hitem => mem_items_perform (hvector item hitem) _, trivial⟩

set_option maxRecDepth 20000 in
/-- The table has the vector without the blob, which the memory store has. -/
theorem blob_elsewhere :
    (persistedTwice.stores true).find? blobVector.digest = some (blobVector.encode, .persisted) ∧
      largeBlob.digest ∈ blobVector.encode.named ∧
      (persistedTwice.stores true).find? largeBlob.digest = none ∧
      (∃ link ∈ persistedTwice.links, largeBlob.digest ∈ link.named ∧
        persistedTwice.Elsewhere true link) ∧
      ∃ other, other ≠ true ∧ ((persistedTwice.stores other).find? largeBlob.digest).isSome := by
  have hentry : (persistedTwice.stores true).find? blobVector.digest =
      some (blobVector.encode, .persisted) := by decide +kernel
  have hnamed : largeBlob.digest ∈ blobVector.encode.named := by decide +kernel
  have hnone : (persistedTwice.stores true).find? largeBlob.digest = none := by decide +kernel
  have hinj : Set.InjOn Digest.of persistedTwice.encodings :=
    injOn_of_everyEncoding mem_bools (by decide +kernel)
  refine ⟨hentry, hnamed, hnone, ?_⟩
  have hmissing : ¬((persistedTwice.stores true).find? largeBlob.digest).isSome := by
    rw [hnone]
    nofun
  exact (closed_or_elsewhere reached_persistedTwice hinj hentry hnamed).resolve_left hmissing

/-! ### One store -/

/--
In the only store, every digest that an entry names has an entry of at least the same status, unless
that is the entry of a small cell. A small cell has an entry, with a status of its own.
-/
theorem closed_at_status [Subsingleton ι] (h : session.Reached)
    (hinj : Set.InjOn Digest.of session.encodings) {index : ι} {key : Digest} {encoding : Bytes}
    {status : Status} (hentry : (session.stores index).find? key = some (encoding, status))
    {digest : Digest} (hnamed : digest ∈ encoding.named) :
    ∃ found held, (session.stores index).find? digest = some (found, held) ∧ .stored ≤ held ∧
      (maxEmbedded < found.length → status ≤ held) := by
  have hstored := (h.inv.store index).stored key encoding status hentry
  have hbacks : (session.stores index).Backs digest status := by
    rcases h.inv.closed hinj index key encoding status hentry digest hnamed with
      hbacks | ⟨link, hlink, -, hnamed', hle⟩
    · exact hbacks
    · obtain ⟨other, hother⟩ := h.inv.backed hinj hlink hstored hle hnamed'
      exact Subsingleton.elim other index ▸ hother
  obtain ⟨found, held, hfound, hheld⟩ := hbacks
  exact ⟨found, held, hfound, (h.inv.store index).stored digest found held hfound,
    fun hlarge => hheld.resolve_right (Nat.not_le.2 hlarge)⟩

/-- An integer, which is written inline where it is held. -/
def smallInteger : Cell := .mk 0 (.integer 5)

/-- A vector that names the integer by its digest. -/
def softVector : Cell := .mk 2 (.vector [.soft 1 smallInteger.digest])

/-- A table, and a user who has made both. -/
def oneStore : Session Unit :=
  ((Session.perform { stores := fun _ => .emptyTable } (.cells (.integer 5))).perform
    (.cells (.soft smallInteger.digest))).perform (.cells (.vectorOf [.soft 1 smallInteger.digest]))

/-- The integer has been stored, and after that the vector has been persisted. -/
def storedAlone : Session Unit :=
  (oneStore.perform (.store () (.make ⟨.stored, le_rfl⟩ smallInteger))).perform
    (.store () (.make ⟨.persisted, by decide⟩ softVector))

theorem mem_unit (index : Unit) : index ∈ [()] := List.mem_singleton_self _

set_option maxRecDepth 20000 in
theorem reached_storedAlone : storedAlone.Reached := by
  have hvector : ∀ item ∈ [Item.cell softVector], item ∈ oneStore.items :=
    mem_items_of_places [2] rfl
  simpa only [storedAlone, oneStore, List.foldl] using
    (Reached.start (fun _ => .emptyTable) fun _ => .inr rfl).requests mem_unit
      [.cells (.integer 5), .cells (.soft smallInteger.digest),
        .cells (.vectorOf [.soft 1 smallInteger.digest]),
        .store () (.make ⟨.stored, le_rfl⟩ smallInteger),
        .store () (.make ⟨.persisted, by decide⟩ softVector)]
      (by decide +kernel)
      ⟨nofun, nofun, mem_items_of_places [1] rfl, mem_items_of_places [0] rfl,
        fun item hitem => mem_items_perform (hvector item hitem) _, trivial⟩

set_option maxRecDepth 20000 in
/-- The vector is persisted, but the integer that it names is only stored. -/
theorem integer_only_stored :
    (storedAlone.stores ()).find? softVector.digest = some (softVector.encode, .persisted) ∧
      smallInteger.digest ∈ softVector.encode.named ∧
      (storedAlone.stores ()).find? smallInteger.digest = some (smallInteger.encode, .stored) ∧
      ∃ found held, (storedAlone.stores ()).find? smallInteger.digest = some (found, held) ∧
        .stored ≤ held ∧ (maxEmbedded < found.length → .persisted ≤ held) := by
  have hentry : (storedAlone.stores ()).find? softVector.digest =
      some (softVector.encode, .persisted) := by decide +kernel
  have hnamed : smallInteger.digest ∈ softVector.encode.named := by decide +kernel
  have hinj : Set.InjOn Digest.of storedAlone.encodings :=
    injOn_of_everyEncoding mem_unit (by decide +kernel)
  exact ⟨hentry, hnamed, by decide +kernel,
    closed_at_status reached_storedAlone hinj hentry hnamed⟩

end CellGraph.Session
