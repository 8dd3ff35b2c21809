import CellGraph.Proofs.Session.Basic
import CellGraph.Proofs.Store.OriginLaw
import CellGraph.Proofs.Store.Read
import CellGraph.Proofs.Store.References

/-!
# What a walk has done so far

A walk leaves a trace on the site where it started: the store has grown, what it wrote or raised has
been reported, and all else is as it was. This is true after every step, and whenever a walk fails.

* `Store.Has`, `Store.Sound.find?_insert_of_le`, `Store.Sound.find?_insert_of_lt`: writing an entry
  that may be there already;
* `Site.Target`, `Site.Child`: where links lead to from a site;
* `Site.stops`: the cells at which soft links can end there;
* `Site.Trace`: what has happened since a walk started;
* `Site.Trace.learn`, `Site.Trace.put`: the two kinds of steps that a walk consists of;
* `Site.Trace.of_resident`, `Site.Trace.of_read`: where links lead to was settled at the start.
-/

namespace CellGraph

open StoreAction

namespace Store

/-- The entry of a cell has at least this status. -/
def Has (store : Store) (cell : Cell) (status : Status) : Prop :=
  ∃ held, status ≤ held ∧ store.find? cell.digest = some (cell.encode, held)

variable {store : Store} {key : Digest} {status : Status}

/-- Writing a cell whose entry has the status already changes no entry. -/
theorem Sound.find?_insert_of_le (h : store.Sound) (cell : Cell) {found : Bytes} {held : Status}
    (hentry : store.find? key = some (found, held)) (hle : status ≤ held) (other : Digest) :
    (store.insert cell cell.encode key status).2.find? other = store.find? other := by
  rw [h.legible.find?_insert]
  split
  · next heq =>
    subst heq
    rw [hentry]
    dsimp only
    rw [Status.max_eq, max_eq_left hle]
  · rfl

/-- Writing a cell whose entry has a lower status, or that has none, gives its entry the status. -/
theorem Sound.find?_insert_of_lt (h : store.Sound) {cell : Cell} {known : Set Bytes}
    (hknown : ∀ key encoding status, store.find? key = some (encoding, status) → encoding ∈ known)
    (hinj : Set.InjOn Digest.of known) (hcell : cell.encode ∈ known)
    (hlow : ∀ found held, store.find? cell.digest = some (found, held) → held < status) :
    (store.insert cell cell.encode cell.digest status).2.find? cell.digest =
      some (cell.encode, status) := by
  rw [h.legible.find?_insert, if_pos rfl]
  cases hentry : store.find? cell.digest with
  | none => rfl
  | some entry =>
    obtain ⟨found, held⟩ := entry
    obtain rfl : found = cell.encode :=
      hinj (hknown _ _ _ hentry) hcell (h.key _ _ _ hentry).symm
    dsimp only
    rw [Status.max_eq, max_eq_right (hlow _ _ hentry).le]

/-- What has been written has its entry. -/
theorem Sound.has_insert (h : store.Sound) {cell : Cell} {known : Set Bytes}
    (hknown : ∀ key encoding status, store.find? key = some (encoding, status) → encoding ∈ known)
    (hinj : Set.InjOn Digest.of known) (hcell : cell.encode ∈ known) (status : Status) :
    (store.insert cell cell.encode cell.digest status).2.Has cell status := by
  obtain ⟨encoding, held, hle, hentry⟩ := h.legible.find?_insert_self cell cell.digest status
  refine ⟨held, hle, ?_⟩
  rcases h.legible.of_find?_insert hentry with ⟨previous, hprevious, -⟩ | ⟨-, -, rfl, -⟩
  · rw [hentry, hinj (hknown _ _ _ hprevious) hcell (h.key _ _ _ hprevious).symm]
  · exact hentry

end Store

namespace Site

/-- The store gives a cell for a digest, to someone who knows what is known here. -/
def Gives (site : Site) (key : Digest) (cell : Cell) : Prop :=
  ∃ known : Knowledge, site.known.next ≤ known.next ∧ site.store.read key known = .ok (some cell)

/-- A link holds a cell, or holds none, and the store gives this one for its digest. -/
def Target (site : Site) (link : Link) (cell : Cell) : Prop :=
  site.known.resident link = some cell ∨
    site.known.resident link = none ∧ site.Gives link.digest cell

/-- A link of a cell leads to another cell. -/
def Child (site : Site) (cell target : Cell) : Prop := ∃ link ∈ cell.links, site.Target link target

/-- The encodings of all cells that soft links can lead to. -/
def stops (site : Site) : List Bytes :=
  site.store.encodings ++ site.known.kept.toList.map fun entry => entry.2.encode

/-- There are more hops than cells that soft links can lead to. -/
theorem stops_lt_hopLimit (site : Site) : site.stops.length < hopLimit site := by
  have hstore : site.store.encodings.length = site.store.count := by
    cases site.store with
    | memory entries => exact List.length_map _
    | table rows => exact List.length_map _
  rw [stops, List.length_append, List.length_map, Std.TreeMap.length_toList, hstore]
  exact Nat.lt_succ_self _

theorem mem_stops_of_kept {site : Site} {label : Label} {cell : Cell}
    (h : site.known.kept[label]? = some cell) : cell.encode ∈ site.stops := by
  refine List.mem_append_right _ (List.mem_map.2 ⟨(label, cell), ?_, rfl⟩)
  exact Std.TreeMap.mem_toList_iff_getElem?_eq_some.2 h

theorem mem_stops_of_gives {site : Site} (hsound : site.store.Sound) {key : Digest} {cell : Cell}
    (h : site.Gives key cell) : cell.encode ∈ site.stops := by
  obtain ⟨known, -, hread⟩ := h
  obtain ⟨status, hentry⟩ := hsound.of_read hread
  exact List.mem_append_left _ (Store.mem_encodings hentry)

/--
What has happened since a walk to a status started. Entries that are not reported as new are as they
were. Those that are have one of the encodings that the walk may write, and the status; before, they
were not there, or had a lower one. Whatever depends on another cell is reported after it.
-/
structure Trace (encodings : Set Bytes) (start : Site) (goal : Status) (written : Set Bytes)
    (site : Site) : Prop where
  moves : start.Moves site
  whole : site.store.Whole
  journal : ∀ store ∈ site.journal, store.Whole
  kept : ∀ (label : Label) (cell : Cell), site.known.kept[label]? = some cell →
    start.known.kept[label]? = some cell ∨ start.Gives cell.digest cell
  read : ∀ key, (start.store.find? key).isSome → ∀ known,
    site.store.read key known = start.store.read key known
  same : ∀ key, key ∉ site.novel → site.store.find? key = start.store.find? key
  novel : ∀ key ∈ site.novel, ∃ encoding ∈ written, Digest.of encoding = key ∧
    site.store.find? key = some (encoding, goal) ∧
    ∀ found held, start.store.find? key = some (found, held) → held < goal
  nodup : site.novel.Nodup
  order : Tidy encodings → site.novel.Pairwise fun earlier later =>
    ∀ a b, Digest.of a = earlier → Digest.of b = later → a ∈ encodings → ¬Depends encodings a b

namespace Trace

variable {encodings written written' : Set Bytes} {start site : Site} {goal : Status} {cell : Cell}

/-- Nothing has happened yet. -/
theorem at_start (hwhole : site.store.Whole) (hnovel : site.novel = [])
    (hjournal : site.journal = []) :
    Trace encodings site goal written site where
  moves := .refl site
  whole := hwhole
  journal := by rw [hjournal]; nofun
  kept _ _ h := .inl h
  read _ _ _ := rfl
  same _ _ := rfl
  novel := by rw [hnovel]; nofun
  nodup := hnovel ▸ .nil
  order _ := hnovel ▸ .nil

theorem mono (h : Trace encodings start goal written site) (hsub : written ⊆ written') :
    Trace encodings start goal written' site :=
  { h with novel := fun key hkey =>
      let ⟨encoding, hwritten, hrest⟩ := h.novel key hkey
      ⟨encoding, hsub hwritten, hrest⟩ }

/-- More becomes known, and what links come to hold is what the store gave for them. -/
theorem learn (h : Trace encodings start goal written site) {known : Knowledge}
    (hgrows : site.known.Grows known)
    (hkept : ∀ (label : Label) (cell : Cell), known.kept[label]? = some cell →
      site.known.kept[label]? = some cell ∨ start.Gives cell.digest cell) :
    Trace encodings start goal written { site with known } :=
  { h with
    moves := ⟨h.moves.known.trans hgrows, h.moves.store⟩
    kept := fun label cell hcell => (hkept label cell hcell).elim (h.kept label cell) .inr }

/-- Nothing becomes known but labels, digests, encodings and statuses. -/
theorem note (h : Trace encodings start goal written site) {known : Knowledge}
    (hgrows : site.known.Grows known) (hkept : known.kept = site.known.kept) :
    Trace encodings start goal written { site with known } :=
  h.learn hgrows fun _ _ hcell => .inl (hkept ▸ hcell)

/-- An entry whose status is too low has not been touched. -/
theorem not_novel_of_lt (h : Trace encodings start goal written site) {key : Digest}
    (hlow : ∀ found held, site.store.find? key = some (found, held) → held < goal) :
    key ∉ site.novel := by
  intro hkey
  obtain ⟨encoding, -, -, hentry, -⟩ := h.novel key hkey
  exact lt_irrefl goal (hlow encoding goal hentry)

/-! ### Where links lead to -/

/-- What a link holds, it held at the start, or the store gave it for the link. -/
theorem of_resident (h : Trace encodings start goal written site) {link : Link}
    (hresident : site.known.resident link = some cell) (hdigest : cell.digest = link.digest) :
    start.Target link cell := by
  cases link with
  | direct label target => exact .inl hresident
  | soft label digest =>
    rcases h.kept label cell hresident with hkept | hgives
    · exact .inl hkept
    · cases hstart : start.known.resident (.soft label digest) with
      | none => exact .inr ⟨hstart, hdigest ▸ hgives⟩
      | some held =>
        have hkept := h.moves.known.kept label held hstart
        obtain rfl : held = cell := Option.some.inj (hkept.symm.trans hresident)
        exact .inl hstart

/-- What a soft link holds is one of the cells to which it could lead at the start. -/
theorem mem_stops (h : Trace encodings start goal written site) (hsound : start.store.Sound)
    {label : Label} (hkept : site.known.kept[label]? = some cell) : cell.encode ∈ start.stops := by
  rcases h.kept label cell hkept with hkept | hgives
  · exact mem_stops_of_kept hkept
  · exact mem_stops_of_gives hsound hgives

/-- What is read for an entry that has not been touched, the store gave at the start. -/
theorem gives (h : Trace encodings start goal written site) (hsound : site.store.Sound)
    {key : Digest} {known : Knowledge} (hknown : site.known.next ≤ known.next)
    (hnovel : key ∉ site.novel) (hread : site.store.read key known = .ok (some cell)) :
    start.Gives key cell := by
  obtain ⟨status, hentry⟩ := hsound.of_read hread
  have hsome : (start.store.find? key).isSome := by
    rw [← h.same key hnovel, hentry]
    rfl
  exact ⟨known, h.moves.known.next.trans hknown, (h.read key hsome known).symm.trans hread⟩

/-- What is read for a link that holds nothing, it led to at the start. -/
theorem of_read (h : Trace encodings start goal written site) {link : Link}
    (hresident : site.known.resident link = none) (hgives : start.Gives link.digest cell) :
    start.Target link cell :=
  .inr ⟨h.moves.resident_eq_none hresident, hgives⟩

/-! ### Writing -/

section

variable (h : Trace encodings start goal written site) (hsound : site.store.Sound)
  (hentries : ∀ key encoding status, site.store.find? key = some (encoding, status) →
    encoding ∈ encodings)
  (hinj : Set.InjOn Digest.of encodings)

include h hsound hentries hinj

/-- No cell that depends on one with a low status has been reported. -/
theorem put_order (hfounded : site.store.Founded) (htidy : Tidy encodings)
    (hlow : ∀ found held, site.store.find? cell.digest = some (found, held) → held < goal) :
    (site.novel ++ [cell.digest]).Pairwise fun earlier later =>
      ∀ a b, Digest.of a = earlier → Digest.of b = later → a ∈ encodings →
        ¬Depends encodings a b := by
  refine List.pairwise_append.2 ⟨h.order htidy, List.pairwise_singleton _ _, ?_⟩
  intro earlier hearlier later hlater a b ha hb hmem hdepends
  obtain ⟨encoding, -, hkey, hentry, -⟩ := h.novel earlier hearlier
  obtain rfl : encoding = a := hinj (hentries _ _ _ hentry) hmem (hkey.trans ha.symm)
  rw [← ha] at hentry
  -- What the earlier cell depends on has its status by now, so the later one does not need it.
  obtain ⟨held, hle, hfound⟩ :=
    hfounded.depends hsound hentries hinj htidy hentry hdepends
  rw [hb, List.mem_singleton.1 hlater] at hfound
  exact absurd (hlow _ _ hfound) (not_lt.2 hle)

omit hentries hinj in
/-- A cell is written. What is then reported has to be in accordance with the entries. -/
theorem insert (hnamed : ∀ digest ∈ cell.encode.named, (site.store.find? digest).isSome)
    {novel : List Digest}
    (hsame : ∀ key, key ∉ novel →
      (site.store.insert cell cell.encode cell.digest goal).2.find? key = start.store.find? key)
    (hnovel : ∀ key ∈ novel, ∃ encoding ∈ written', Digest.of encoding = key ∧
      (site.store.insert cell cell.encode cell.digest goal).2.find? key = some (encoding, goal) ∧
      ∀ found held, start.store.find? key = some (found, held) → held < goal)
    (hnodup : novel.Nodup)
    (horder : Tidy encodings → novel.Pairwise fun earlier later =>
      ∀ a b, Digest.of a = earlier → Digest.of b = later → a ∈ encodings →
        ¬Depends encodings a b) :
    Trace encodings start goal written' { site with
      store := (site.store.insert cell cell.encode cell.digest goal).2
      journal := (site.store.insert cell cell.encode cell.digest goal).2 :: site.journal
      novel := novel } where
  moves := ⟨h.moves.known, h.moves.store.trans (hsound.legible.grows_insert cell cell.digest goal)⟩
  whole := h.whole.insert hsound cell.digest goal hnamed
  journal store hstore := by
    rcases List.mem_cons.1 hstore with rfl | hstore
    · exact h.whole.insert hsound cell.digest goal hnamed
    · exact h.journal store hstore
  kept := h.kept
  read key hkey known :=
    (hsound.read_insert (h.moves.store.isSome hkey) known).trans (h.read key hkey known)
  same := hsame
  novel := hnovel
  nodup := hnodup
  order := horder

/-- A cell is written whose entry has a lower status, or that has none, and reported. -/
theorem put_of_lt (hcell : cell.encode ∈ encodings) (hfounded : site.store.Founded)
    (hnamed : ∀ digest ∈ cell.encode.named, (site.store.find? digest).isSome)
    (hsub : written ⊆ written') (hwritten : cell.encode ∈ written')
    (hlow : ∀ found held, site.store.find? cell.digest = some (found, held) → held < goal) :
    Trace encodings start goal written' { site with
      store := (site.store.insert cell cell.encode cell.digest goal).2
      journal := (site.store.insert cell cell.encode cell.digest goal).2 :: site.journal
      novel := site.novel ++ [cell.digest] } := by
  have hnew := h.not_novel_of_lt hlow
  have hother : ∀ key, key ≠ cell.digest →
      (site.store.insert cell cell.encode cell.digest goal).2.find? key =
        site.store.find? key := by
    intro key hne
    rw [hsound.legible.find?_insert, if_neg hne.symm]
  refine h.insert hsound hnamed (fun key hkey => ?_) (fun key hkey => ?_) ?_
    fun htidy => put_order h hsound hentries hinj hfounded htidy hlow
  · rw [List.mem_append, List.mem_singleton, not_or] at hkey
    exact (hother key hkey.2).trans (h.same key hkey.1)
  · rcases List.mem_append.1 hkey with hkey | hkey
    · obtain ⟨encoding, hmem, hof, hentry, hbefore⟩ := h.novel key hkey
      have hne : key ≠ cell.digest := fun heq => hnew (heq ▸ hkey)
      exact ⟨encoding, hsub hmem, hof, (hother key hne).trans hentry, hbefore⟩
    · obtain rfl := List.mem_singleton.1 hkey
      have hself := hsound.find?_insert_of_lt hentries hinj hcell hlow
      exact ⟨cell.encode, hwritten, rfl, hself, fun found held hentry =>
        hlow found held ((h.same _ hnew).trans hentry)⟩
  · refine List.nodup_append.2 ⟨h.nodup, List.nodup_singleton _, ?_⟩
    rintro earlier hearlier later hlater rfl
    exact hnew (List.mem_singleton.1 hlater ▸ hearlier)

omit hentries hinj in
/-- A cell is written whose entry has the status already, which changes no entry. -/
theorem put_of_le (hnamed : ∀ digest ∈ cell.encode.named, (site.store.find? digest).isSome)
    (hsub : written ⊆ written') {found : Bytes} {held : Status}
    (hentry : site.store.find? cell.digest = some (found, held)) (hle : goal ≤ held) :
    Trace encodings start goal written' { site with
      store := (site.store.insert cell cell.encode cell.digest goal).2
      journal := (site.store.insert cell cell.encode cell.digest goal).2 :: site.journal } := by
  have hsame := hsound.find?_insert_of_le cell hentry hle
  refine h.insert hsound hnamed (fun key hkey => (hsame key).trans (h.same key hkey))
    (fun key hkey => ?_) h.nodup h.order
  obtain ⟨encoding, hmem, hof, hentry, hbefore⟩ := h.novel key hkey
  exact ⟨encoding, hsub hmem, hof, (hsame key).trans hentry, hbefore⟩

/-- A cell is written, and reported if this raises its entry. -/
theorem put (hcell : cell.encode ∈ encodings) (hfounded : site.store.Founded)
    (hnamed : ∀ digest ∈ cell.encode.named, (site.store.find? digest).isSome)
    (hsub : written ⊆ written') (hwritten : cell.encode ∈ written') :
    Trace encodings start goal written' { site with
      store := (site.store.insert cell cell.encode cell.digest goal).2
      journal := (site.store.insert cell cell.encode cell.digest goal).2 :: site.journal
      novel := if ((site.store.find? cell.digest).map Prod.snd).all (· < goal)
        then site.novel ++ [cell.digest] else site.novel } := by
  split
  · next hraised =>
    refine put_of_lt h hsound hentries hinj hcell hfounded hnamed hsub hwritten
      fun found held hentry => ?_
    rw [hentry] at hraised
    exact of_decide_eq_true hraised
  · next hkept =>
    obtain ⟨found, held, hentry, hle⟩ :
        ∃ found held, site.store.find? cell.digest = some (found, held) ∧ goal ≤ held := by
      cases hentry : site.store.find? cell.digest with
      | none =>
        rw [hentry] at hkept
        exact absurd rfl hkept
      | some entry =>
        rw [hentry] at hkept
        exact ⟨entry.1, entry.2, rfl, not_lt.1 fun hlt => hkept (decide_eq_true hlt)⟩
    exact put_of_le h hsound hnamed hsub hentry hle

end

end Trace

end Site

end CellGraph
