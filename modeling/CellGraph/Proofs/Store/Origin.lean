import CellGraph.Proofs.Knowledge.Law
import CellGraph.Proofs.Store.Entries

/-!
# What stands behind a status

A status promises something of all the digests that are written for a link or in an entry. While
walks are under way on a store, a digest may also be left to a link that had the status before they
started.

* `Store.HasAt`, `Store.Excuses`, `Store.Vouches`: what a store has itself for the target of a link;
* `Store.Backs`, `Settled`: digests that a store, or an earlier link, stands for;
* `Origin`, `Origin.Inv`: the invariant of computations on a store since a point in time;
* `Origin.Inv.settled`: what the status of a link says;
* `Origin.Inv.learn`, `Origin.Inv.advance`, `Origin.Inv.insert`: the steps that keep the invariant.
-/

namespace CellGraph

/-- The entry of a digest has at least this status. -/
def Store.HasAt (store : Store) (digest : Digest) (status : Status) : Prop :=
  ∃ encoding held, store.find? digest = some (encoding, held) ∧ status ≤ held

/-- The entry of a digest has at least this status, or it is that of a small cell. -/
def Store.Backs (store : Store) (digest : Digest) (status : Status) : Prop :=
  ∃ encoding held, store.find? digest = some (encoding, held) ∧
    (status ≤ held ∨ encoding.length ≤ maxEmbedded)

/--
A target that is written inline need not have an entry, and behind a soft link that of a small cell
may have any status.
-/
def Store.Excuses (store : Store) : Link → Prop
  | .direct _ target => target.isSmall = true
  | .soft _ digest => ∃ encoding held, store.find? digest = some (encoding, held) ∧
      encoding.length ≤ maxEmbedded

/-- A store has the target of a link with at least this status, unless it excuses the link. -/
def Store.Vouches (store : Store) (status : Status) (link : Link) : Prop :=
  store.HasAt link.digest status ∨ store.Excuses link

/--
Each of some digests is backed by a store with a status, or written for a link in use that has the
status. The rank of that link is lower, so that asking what stands behind its status comes to an
end.
-/
def Settled (held : Set Link) (known : Knowledge) (store : Store) (rank : Nat)
    (names : List Digest) (status : Status) : Prop :=
  ∀ digest ∈ names, store.Backs digest status ∨
    ∃ link ∈ held, link.rank < rank ∧ digest ∈ link.named ∧ status ≤ known.statusAt link.label

theorem Store.HasAt.mono {store store' : Store} {digest : Digest} {status status' : Status}
    (h : store.HasAt digest status) (hstore : store.Grows store') (hstatus : status' ≤ status) :
    store'.HasAt digest status' := by
  obtain ⟨encoding, held, hentry, hle⟩ := h
  obtain ⟨held', hheld, hentry'⟩ := hstore.entry digest encoding held hentry
  exact ⟨encoding, held', hentry', (hstatus.trans hle).trans hheld⟩

theorem Store.HasAt.backs {store : Store} {digest : Digest} {status : Status}
    (h : store.HasAt digest status) : store.Backs digest status := by
  obtain ⟨encoding, held, hentry, hle⟩ := h
  exact ⟨encoding, held, hentry, .inl hle⟩

theorem Store.Backs.mono {store store' : Store} {digest : Digest} {status status' : Status}
    (h : store.Backs digest status) (hstore : store.Grows store') (hstatus : status' ≤ status) :
    store'.Backs digest status' := by
  obtain ⟨encoding, held, hentry, hbacks⟩ := h
  obtain ⟨held', hle, hentry'⟩ := hstore.entry digest encoding held hentry
  exact ⟨encoding, held', hentry', hbacks.imp_left fun h => (hstatus.trans h).trans hle⟩

theorem Store.Excuses.mono {store store' : Store} {link : Link} (h : store.Excuses link)
    (hstore : store.Grows store') : store'.Excuses link := by
  cases link with
  | direct label target => exact h
  | soft label digest =>
    obtain ⟨encoding, held, hentry, hsmall⟩ := h
    obtain ⟨held', -, hentry'⟩ := hstore.entry digest encoding held hentry
    exact ⟨encoding, held', hentry', hsmall⟩

theorem Store.Vouches.mono {store store' : Store} {link : Link} {status status' : Status}
    (h : store.Vouches status link) (hstore : store.Grows store') (hstatus : status' ≤ status) :
    store'.Vouches status' link :=
  h.imp (·.mono hstore hstatus) (·.mono hstore)

section

variable {held held' : Set Link} {known known' : Knowledge} {store store' : Store}
  {rank rank' : Nat} {names : List Digest} {status status' : Status}

theorem Settled.mono (h : Settled held known store rank names status) (hheld : held ⊆ held')
    (hknown : known.Grows known') (hstore : store.Grows store') (hrank : rank ≤ rank')
    (hstatus : status' ≤ status) : Settled held' known' store' rank' names status' := by
  intro digest hdigest
  rcases h digest hdigest with hbacks | ⟨link, hlink, hlt, hnamed, hle⟩
  · exact .inl (hbacks.mono hstore hstatus)
  · exact .inr ⟨link, hheld hlink, hlt.trans_le hrank, hnamed,
      (hstatus.trans hle).trans (hknown.status link.label)⟩

theorem Settled.rank_le (h : Settled held known store rank names status) (hrank : rank ≤ rank') :
    Settled held known store rank' names status :=
  h.mono subset_rfl (.refl _) (.refl _) hrank le_rfl

theorem Settled.status_le (h : Settled held known store rank names status)
    (hstatus : status' ≤ status) : Settled held known store rank names status' :=
  h.mono subset_rfl (.refl _) (.refl _) le_rfl hstatus

/-- Less is written inline for a link than for the cell that has it. -/
theorem Link.rank_lt {cell : Cell} {link : Link} (h : link ∈ cell.links) :
    link.rank < cell.encode.length := by
  cases hinline : link.inline? with
  | some target =>
    rw [Link.rank, hinline]
    exact Cell.encode_length_lt h hinline
  | none =>
    rw [Link.rank, hinline, Cell.encode_eq]
    exact Nat.succ_pos _

/-- A cell's digests are those of its links. -/
theorem Settled.of_links {cell : Cell}
    (h : ∀ link ∈ cell.links, Settled held known store (link.rank + 1) link.named status) :
    Settled held known store cell.encode.length cell.named status := by
  intro digest hdigest
  obtain ⟨link, hlink, hnamed⟩ := Cell.mem_named.1 hdigest
  exact (h link hlink).rank_le (Link.rank_lt hlink) digest hnamed

/-- The digest of a link's target is all that is written for a link that is not inline. -/
theorem Settled.of_not_inline {link : Link} (h : link.inline? = none)
    (hbacks : store.Backs link.digest status) :
    Settled held known store rank link.named status := by
  intro digest hdigest
  rw [Link.named_of_not_inline h, List.mem_singleton] at hdigest
  exact .inl (hdigest ▸ hbacks)

/-- A link that is inline has the digests of its target. -/
theorem Settled.of_inline {link : Link} {target : Cell} (h : link.inline? = some target)
    (htarget : Settled held known store target.encode.length target.named status) :
    Settled held known store link.rank link.named status := by
  rw [Link.named_of_inline h, Link.rank, h]
  exact htarget

end

/-! ### The invariant -/

/--
A point in time: the links that were in use, what was known, and the encodings of all cells that
were there to be written.
-/
structure Origin where
  held : Set Link
  known : Knowledge
  encodings : Set Bytes
  unused : ∀ label, known.next ≤ label → known.statusAt label = .unknown

namespace Origin

variable (origin : Origin)

/-- A sound cell that may be written: one that is not small has one of the encodings. -/
structure Covers (cell : Cell) : Prop where
  sound : cell.value.Sound
  large : cell.isSmall = false → cell.encode ∈ origin.encodings

/-- The digests of some names are settled by what is there since the origin. -/
abbrev Settles (store : Store) (rank : Nat) (names : List Digest) (status : Status) : Prop :=
  Settled origin.held origin.known store rank names status

/--
What holds of a site since the origin. The store vouches for whatever link has been found to be
stored, or has been raised further. The last two parts need digests that tell the encodings apart:
such a link is settled with its status, and so is every entry.
-/
structure Inv (held : Set Link) (site : Site) : Prop where
  coherent : Coherent origin.Covers held site.known
  subset : origin.held ⊆ held
  known : origin.known.Grows site.known
  fresh : ∀ link ∈ held, link ∉ origin.held → origin.known.next ≤ link.label
  store : site.store.Sound
  remembers : ∀ cell, site.store.Remembers cell → cell.Within origin.Covers held
  encodings : ∀ key encoding status, site.store.find? key = some (encoding, status) →
    encoding ∈ origin.encodings
  vouched : ∀ link ∈ held, .stored ≤ site.known.statusAt link.label →
    site.known.statusAt link.label ≠ origin.known.statusAt link.label →
    site.store.Vouches (site.known.statusAt link.label) link
  raised : Set.InjOn Digest.of origin.encodings → ∀ link ∈ held,
    .stored ≤ site.known.statusAt link.label →
    site.known.statusAt link.label ≠ origin.known.statusAt link.label →
    origin.Settles site.store link.rank link.named (site.known.statusAt link.label)
  closed : Set.InjOn Digest.of origin.encodings → ∀ key encoding status,
    site.store.find? key = some (encoding, status) →
    origin.Settles site.store encoding.length encoding.named status

variable {origin} {held held' : Set Link} {site : Site}

/-- A cell that is covered, with all its links in use, is sound at every depth. -/
theorem sound_of_within {known : Knowledge} (h : Coherent origin.Covers held known) {cell : Cell}
    (hcell : cell.Within origin.Covers held) : cell.Sound :=
  ⟨hcell.good.sound, fun link hlink t ht =>
    (h.target link (hcell.links link hlink) t ht).good.sound⟩

namespace Inv

/-- What stands behind the status of a link. -/
theorem settled (h : origin.Inv held site) (hinj : Set.InjOn Digest.of origin.encodings)
    {link : Link} (hlink : link ∈ held) {status : Status} (hstored : .stored ≤ status)
    (hstatus : status ≤ site.known.statusAt link.label) :
    origin.Settles site.store (link.rank + 1) link.named status := by
  by_cases heq : site.known.statusAt link.label = origin.known.statusAt link.label
  · -- A link that had the status at the origin was in use there, for it had a label with a status.
    have hold : link ∈ origin.held := by
      by_contra hnot
      rw [heq, origin.unused _ (h.fresh link hlink hnot)] at hstatus
      exact absurd (hstored.trans hstatus) (by decide)
    exact fun digest hdigest => .inr ⟨link, hold, Nat.lt_succ_self _, hdigest, heq ▸ hstatus⟩
  · exact ((h.raised hinj link hlink (hstored.trans hstatus) heq).rank_le (Nat.le_succ _)).status_le
      hstatus

/-- A cell whose links all have a status is settled with that status. -/
theorem settled_cell (h : origin.Inv held site) (hinj : Set.InjOn Digest.of origin.encodings)
    {cell : Cell} (hcell : cell.Within origin.Covers held) {status : Status}
    (hstored : .stored ≤ status)
    (hlinks : ∀ link ∈ cell.links, status ≤ site.known.statusAt link.label) :
    origin.Settles site.store cell.encode.length cell.named status :=
  .of_links fun link hlink =>
    h.settled hinj (hcell.links link (Cell.mem_everyLink_of_mem hlink)) hstored (hlinks link hlink)

/-- More is learnt about cells, and links come into use. -/
theorem learn (h : origin.Inv held site) {known : Knowledge} (hsub : held ⊆ held')
    (hcoherent : Coherent origin.Covers held' known)
    (hmoves : Knowledge.Moves held site.known held' known) :
    origin.Inv held' { site with known } := by
  -- A computation on cells finds no link to be stored, so the status is that of before.
  have hkept : ∀ link ∈ held', .stored ≤ known.statusAt link.label →
      known.statusAt link.label = site.known.statusAt link.label ∧ link ∈ held := by
    intro link hlink hstored
    have heq := hmoves.learns.stored link.label hstored
    refine ⟨heq, ?_⟩
    by_contra hnot
    rw [heq, h.coherent.status _ (hmoves.fresh link hlink hnot)] at hstored
    exact absurd hstored (by decide)
  refine ⟨hcoherent, h.subset.trans hsub, h.known.trans hmoves.learns.toGrows, ?_, h.store,
    fun cell hcell => (h.remembers cell hcell).mono hsub, h.encodings, ?_, ?_, h.closed⟩
  · intro link hlink hnot
    by_cases hheld : link ∈ held
    · exact h.fresh link hheld hnot
    · exact h.known.next.trans (hmoves.fresh link hlink hheld)
  · intro link hlink hstored hne
    obtain ⟨heq, hheld⟩ := hkept link hlink hstored
    dsimp only at hstored hne ⊢
    rw [heq] at hstored hne ⊢
    exact h.vouched link hheld hstored hne
  · intro hinj link hlink hstored hne
    obtain ⟨heq, hheld⟩ := hkept link hlink hstored
    dsimp only at hstored hne ⊢
    rw [heq] at hstored hne ⊢
    exact h.raised hinj link hheld hstored hne

/--
What is promised of a status that a link is given, and of those of all links that were raised before,
is promised of all that are raised after that.
-/
theorem forall_advance (h : origin.Inv held site) (promise : Status → Link → Prop) {link : Link}
    (hlink : link ∈ held) {status : Status} (hnew : promise status link)
    (hraised : ∀ other ∈ held, .stored ≤ site.known.statusAt other.label →
      site.known.statusAt other.label ≠ origin.known.statusAt other.label →
      promise (site.known.statusAt other.label) other) :
    ∀ other ∈ held, .stored ≤ (site.known.advance link status).statusAt other.label →
      (site.known.advance link status).statusAt other.label ≠
        origin.known.statusAt other.label →
      promise ((site.known.advance link status).statusAt other.label) other := by
  intro other hother hstored hne
  rw [Knowledge.statusAt_advance] at hstored hne ⊢
  by_cases heq : link.label = other.label
  · obtain rfl := h.coherent.label_inj link hlink other hother heq
    rw [if_pos rfl, Status.max_eq] at hstored hne ⊢
    rcases max_choice (site.known.statusAt link.label) status with hmax | hmax
    · rw [hmax] at hstored hne ⊢
      exact hraised link hlink hstored hne
    · rw [hmax]
      exact hnew
  · rw [if_neg heq] at hstored hne ⊢
    exact hraised other hother hstored hne

/-- A link is given a status with which it is settled, and for which the store vouches. -/
theorem advance (h : origin.Inv held site) {link : Link} (hlink : link ∈ held) {status : Status}
    (hvouched : site.store.Vouches status link)
    (hsettled : Set.InjOn Digest.of origin.encodings →
      origin.Settles site.store link.rank link.named status) :
    origin.Inv held { site with known := site.known.advance link status } :=
  ⟨h.coherent.advance hlink status, h.subset, h.known.trans (.advance _ _ _), h.fresh, h.store,
    h.remembers, h.encodings, h.forall_advance _ hlink hvouched h.vouched,
    fun hinj => h.forall_advance
      (fun status link => origin.Settles site.store link.rank link.named status)
      hlink (hsettled hinj) (h.raised hinj),
    h.closed⟩

/-- A cell is written that is settled with the status. -/
theorem insert (h : origin.Inv held site) {cell : Cell} (hcell : cell.Within origin.Covers held)
    (hencoding : cell.encode ∈ origin.encodings) {status : Status} (hstored : .stored ≤ status)
    (hsettled : Set.InjOn Digest.of origin.encodings →
      origin.Settles site.store cell.encode.length cell.named status) (journal : List Store) :
    origin.Inv held { site with
      store := (site.store.insert cell cell.encode cell.digest status).2, journal } := by
  have hsound := sound_of_within h.coherent hcell
  have hgrows := h.store.legible.grows_insert cell cell.digest status
  refine ⟨h.coherent, h.subset, h.known, h.fresh, h.store.insert hsound rfl hstored, ?_, ?_,
    fun link hlink hstored hne => (h.vouched link hlink hstored hne).mono hgrows le_rfl, ?_, ?_⟩
  · intro other hother
    rcases Store.remembers_insert hother with hother | rfl
    · exact h.remembers other hother
    · exact hcell
  · intro key encoding held hentry
    rcases h.store.legible.of_find?_insert hentry with ⟨previous, hprevious, -⟩ | ⟨-, -, rfl, -⟩
    · exact h.encodings key encoding previous hprevious
    · exact hencoding
  · intro hinj link hlink hstored hne
    exact (h.raised hinj link hlink hstored hne).mono subset_rfl (.refl _) hgrows le_rfl le_rfl
  · intro hinj key encoding held hentry
    have hnew : origin.Settles (site.store.insert cell cell.encode cell.digest status).2
        cell.encode.length cell.encode.named status := by
      rw [Cell.named_encode hsound]
      exact (hsettled hinj).mono subset_rfl (.refl _) hgrows le_rfl le_rfl
    rcases h.store.legible.of_find?_insert hentry with
      ⟨previous, hprevious, hheld⟩ | ⟨-, -, rfl, rfl⟩
    · have hold := (h.closed hinj key encoding previous hprevious).mono subset_rfl (.refl _) hgrows
        le_rfl le_rfl
      rcases hheld with rfl | ⟨rfl, rfl⟩
      · exact hold
      · -- The entry that was there has the digest of the cell, hence its encoding.
        have heq : encoding = cell.encode :=
          hinj (h.encodings _ _ _ hprevious) hencoding (h.store.key _ _ _ hprevious).symm
        rw [Status.max_eq]
        rcases max_choice previous status with hmax | hmax
        · rw [hmax]
          exact hold
        · rw [hmax, heq]
          exact hnew
    · exact hnew

end Inv

end Origin

end CellGraph
