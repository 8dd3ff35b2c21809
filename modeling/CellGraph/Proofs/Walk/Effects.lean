import CellGraph.Proofs.Walk.Descendants
import CellGraph.Proofs.Walk.Interruption

/-!
# What a walk does

A walk that succeeds brings the entries of its cell and of all large cells below it to at least the
status, and changes no other. It reports what it raised, once, and after all that is below. For this
only large cells may be referred to.

* `Site.under`, `Site.Effect`: what a walk is about, and what it does;
* `Site.Finished`: what is known at its end, in terms of encodings;
* `Site.Finished.reachable_eq`: the encodings that there are besides do not matter;
* `Site.Finished.effect`: what that says of cells.
-/

namespace CellGraph

open StoreAction

/--
The digests of a cell and of the cells below it that are too large to be inline, links being
followed into the store.
-/
def Site.under (site : Site) (top : Cell) : Set Digest := { key |
  key = top.digest ∨ ∃ cell, Relation.TransGen site.Child top cell ∧ cell.isSmall = false ∧
    cell.digest = key }

/--
What a walk from a cell to a status has done. Every entry under the cell has the greater of its old
status and the new one; no other entry has changed. What was not there, or had a lower status, has
been reported, each once, and nothing before what is below it.
-/
structure Site.Effect (start : Site) (goal : Status) (top : Cell) (site : Site) : Prop where
  raised : ∀ key ∈ site.under top, ∃ encoding, Digest.of encoding = key ∧
    site.store.find? key = some (match start.store.find? key with
      | some (found, status) => (found, max status goal)
      | none => (encoding, goal))
  same : ∀ key, key ∉ site.under top → site.store.find? key = start.store.find? key
  nodup : site.novel.Nodup
  novel : ∀ key, key ∈ site.novel ↔ key ∈ site.under top ∧
    ∀ encoding status, start.store.find? key = some (encoding, status) → status < goal
  order : ∀ upper lower, Relation.ReflTransGen site.Child top upper →
    (upper = top ∨ upper.isSmall = false) → Relation.TransGen site.Child upper lower →
    lower.isSmall = false → upper.digest ∈ site.novel → lower.digest ∈ site.novel →
    [lower.digest, upper.digest].Sublist site.novel

/-- What is under the cell of a walk has the status at its end. -/
theorem Site.Effect.exists_status {start site : Site} {goal : Status} {top : Cell}
    (h : start.Effect goal top site) {key : Digest} (hkey : key ∈ site.under top) :
    ∃ encoding status, site.store.find? key = some (encoding, status) ∧ goal ≤ status := by
  obtain ⟨encoding, -, hentry⟩ := h.raised key hkey
  cases hstart : start.store.find? key with
  | none =>
    rw [hstart] at hentry
    exact ⟨encoding, goal, hentry, le_rfl⟩
  | some entry =>
    rw [hstart] at hentry
    exact ⟨entry.1, max entry.2 goal, hentry, le_max_right _ _⟩

/-- Of two members of a list, one comes before the other. -/
theorem sublist_or_sublist {α : Type} {a b : α} {list : List α} (ha : a ∈ list) (hb : b ∈ list)
    (hne : a ≠ b) : [a, b].Sublist list ∨ [b, a].Sublist list := by
  induction list with
  | nil => cases ha
  | cons c rest ih =>
    rcases List.mem_cons.1 ha with rfl | ha'
    · have hb' := (List.mem_cons.1 hb).resolve_left hne.symm
      exact .inl (.cons_cons _ (List.singleton_sublist.2 hb'))
    · rcases List.mem_cons.1 hb with rfl | hb'
      · exact .inr (.cons_cons _ (List.singleton_sublist.2 ha'))
      · exact (ih ha' hb').imp (.cons _) (.cons _)

/-! ### Encodings -/

/-- The digests of an encoding and of all that it depends on. -/
def reachable (known : Set Bytes) (top : Bytes) : Set Digest := { key |
  ∃ encoding, Relation.ReflTransGen (Refers known) top encoding ∧ Digest.of encoding = key }

/-- A walk from a cell has come to its end. -/
structure Site.Finished (encodings : Set Bytes) (start : Site) (goal : Status) (top : Cell)
    (site : Site) : Prop where
  trace : Trace encodings start goal
    (insert top.encode { encoding | Depends encodings top.encode encoding }) site
  sound : site.store.Sound
  entries : ∀ key encoding status, site.store.find? key = some (encoding, status) →
    encoding ∈ encodings
  inj : Set.InjOn Digest.of encodings
  founded : site.store.Founded
  has : site.store.Has top goal

namespace Site.Finished

variable {encodings : Set Bytes} {start site : Site} {goal : Status} {top : Cell}

/-- Only the cell and what it depends on is reported. -/
theorem mem_reachable (h : Finished encodings start goal top site) {key : Digest}
    (hkey : key ∈ site.novel) : key ∈ reachable encodings top.encode := by
  obtain ⟨encoding, rfl | hdepends, hof, -⟩ := h.trace.novel key hkey
  · exact ⟨_, .refl, hof⟩
  · exact ⟨_, Relation.TransGen.to_reflTransGen hdepends, hof⟩

/-- An entry that is not that of the cell, nor of anything that it depends on, is as it was. -/
theorem same (h : Finished encodings start goal top site) {key : Digest}
    (hkey : key ∉ reachable encodings top.encode) :
    site.store.find? key = start.store.find? key :=
  h.trace.same key fun hnovel => hkey (h.mem_reachable hnovel)

section

variable (h : Finished encodings start goal top site) (htidy : Tidy encodings)

include h htidy

/-- All that a cell depends on has the status once the cell has it. -/
theorem exists_status {encoding : Bytes}
    (hreach : Relation.ReflTransGen (Refers encodings) top.encode encoding) :
    ∃ held, goal ≤ held ∧ site.store.find? (Digest.of encoding) = some (encoding, held) := by
  obtain ⟨status, hle, hentry⟩ := h.has
  rcases Relation.reflTransGen_iff_eq_or_transGen.1 hreach with rfl | hdepends
  · exact ⟨status, hle, hentry⟩
  · obtain ⟨held, hle', hfound⟩ :=
      h.founded.depends h.sound h.entries h.inj htidy hentry hdepends
    exact ⟨held, hle.trans hle', hfound⟩

/-- What is reported is what had a lower status before, or was not there. -/
theorem mem_novel_iff (key : Digest) : key ∈ site.novel ↔ key ∈ reachable encodings top.encode ∧
    ∀ encoding status, start.store.find? key = some (encoding, status) → status < goal := by
  constructor
  · intro hkey
    obtain ⟨-, -, -, -, hbefore⟩ := h.trace.novel key hkey
    exact ⟨h.mem_reachable hkey, hbefore⟩
  · rintro ⟨⟨encoding, hreach, rfl⟩, hbefore⟩
    by_contra hnot
    obtain ⟨held, hle, hentry⟩ := h.exists_status htidy hreach
    rw [h.trace.same _ hnot] at hentry
    exact absurd (hbefore _ _ hentry) (not_lt.2 hle)

/-- The cell, and what it depends on, has the greater of its old status and the new one. -/
theorem find?_of_reach {encoding : Bytes}
    (hreach : Relation.ReflTransGen (Refers encodings) top.encode encoding) :
    site.store.find? (Digest.of encoding) =
      some (match start.store.find? (Digest.of encoding) with
        | some (found, status) => (found, max status goal)
        | none => (encoding, goal)) := by
  obtain ⟨held, hle, hentry⟩ := h.exists_status htidy hreach
  by_cases hnovel : Digest.of encoding ∈ site.novel
  · obtain ⟨written, -, -, hwritten, hbefore⟩ := h.trace.novel _ hnovel
    obtain ⟨rfl, rfl⟩ : written = encoding ∧ goal = held := by
      simpa using hwritten.symm.trans hentry
    rw [hentry]
    cases hstart : start.store.find? (Digest.of written) with
    | none => rfl
    | some entry =>
      obtain ⟨found, status⟩ := entry
      obtain ⟨status', -, hfound⟩ := h.trace.moves.store.entry _ _ _ hstart
      obtain ⟨rfl, -⟩ : found = written ∧ status' = goal := by
        simpa using hfound.symm.trans hentry
      dsimp only
      rw [max_eq_right (hbefore _ _ hstart).le]
  · rw [← h.trace.same _ hnovel, hentry]
    dsimp only
    rw [max_eq_left hle]

end

/-- What a cell depends on does not change when more encodings are taken into account. -/
theorem reachable_eq (h : Finished encodings start goal top site) {known : Set Bytes}
    (hsub : encodings ⊆ known) (hinj : Set.InjOn Digest.of known) (htidy : Tidy known) :
    reachable known top.encode = reachable encodings top.encode := by
  have hreach : ∀ encoding, Relation.ReflTransGen (Refers known) top.encode encoding →
      Relation.ReflTransGen (Refers encodings) top.encode encoding := by
    intro encoding hreach
    induction hreach with
    | refl => exact .refl
    | @tail a b _ hrefers ih =>
      -- The store has all that is named, under encodings that are among the fewer ones.
      obtain ⟨held, -, hentry⟩ := h.exists_status (htidy.mono hsub) ih
      obtain ⟨found, status, hfound, -⟩ := h.founded _ _ _ hentry _ hrefers.2
      have hmem := h.entries _ _ _ hfound
      obtain rfl : found = b := hinj (hsub hmem) hrefers.1 (h.sound.key _ _ _ hfound).symm
      exact ih.tail ⟨hmem, hrefers.2⟩
  refine Set.ext fun key => ⟨?_, ?_⟩
  · rintro ⟨encoding, h', hof⟩
    exact ⟨encoding, hreach encoding h', hof⟩
  · rintro ⟨encoding, h', hof⟩
    exact ⟨encoding, Relation.ReflTransGen.mono (fun _ _ hab => Refers.mono hab hsub) _ _ h', hof⟩

/-! ### Cells -/

section

variable {origin : Origin} {held : Set Link} (hinv : origin.Inv held site)
  (h : Finished origin.encodings start goal top site) (htidy : Tidy origin.encodings)
  (hmeets : Origin.Meets held site top) (htop : top.encode ∈ origin.encodings)

include hinv h htidy hmeets htop

/-- The large cells below a cell have the encodings on which it depends. -/
theorem under_eq : site.under top = reachable origin.encodings top.encode := by
  refine Set.ext fun key => ⟨?_, ?_⟩
  · rintro (rfl | ⟨cell, hbelow, hlarge, rfl⟩)
    · exact ⟨_, .refl, rfl⟩
    · exact ⟨_, (hmeets.depends hinv hbelow hlarge).to_reflTransGen, rfl⟩
  · rintro ⟨encoding, hreach, rfl⟩
    rcases Relation.reflTransGen_iff_eq_or_transGen.1 hreach with rfl | hdepends
    · exact .inl rfl
    · obtain ⟨cell, hbelow, rfl⟩ := hmeets.exists_below hinv h.inj hdepends fun other hother => by
        obtain ⟨_, -, hentry⟩ := h.exists_status htidy (Relation.TransGen.to_reflTransGen hother)
        rw [hentry]
        rfl
      have hlarge := htidy.depends htop hdepends
      exact .inr ⟨cell, hbelow, Bool.eq_false_iff.2 fun hsmall =>
        absurd ((Cell.isSmall_iff cell).1 hsmall) (Nat.not_le.2 hlarge), rfl⟩

/-- What is below a cell is reported before it. -/
theorem sublist_novel {upper lower : Cell} (hupper : Relation.ReflTransGen site.Child top upper)
    (hlarge : upper = top ∨ upper.isSmall = false)
    (hlower : Relation.TransGen site.Child upper lower) (hlarge' : lower.isSmall = false)
    (hnovel : upper.digest ∈ site.novel) (hnovel' : lower.digest ∈ site.novel) :
    [lower.digest, upper.digest].Sublist site.novel := by
  have hmeets' := (hmeets.below hinv hupper).1
  have hdepends := hmeets'.depends hinv hlower hlarge'
  have hmem : upper.encode ∈ origin.encodings := by
    rcases Relation.reflTransGen_iff_eq_or_transGen.1 hupper with rfl | hbelow
    · exact htop
    · rcases hlarge with rfl | hlarge
      · exact htop
      · exact Depends.mem (hmeets.depends hinv hbelow hlarge)
  have hne : lower.digest ≠ upper.digest := by
    intro heq
    -- A cell that has its entry, with all below it, does not depend on itself.
    have hencode : lower.encode = upper.encode := h.inj (Depends.mem hdepends) hmem heq
    obtain ⟨_, -, -, hentry, -⟩ := h.trace.novel _ hnovel
    have hcomplete := h.trace.whole upper.digest (by rw [hentry]; rfl)
    exact hcomplete.not_depends h.sound h.entries h.inj hmem rfl (hencode ▸ hdepends)
  refine (sublist_or_sublist hnovel' hnovel hne).resolve_right fun hsublist => ?_
  exact List.pairwise_iff_forall_sublist.1 (h.trace.order htidy) hsublist _ _ rfl rfl hmem hdepends

/-- What a walk that has come to its end has done. -/
theorem effect : Effect start goal top site where
  raised key hkey := by
    rw [under_eq hinv h htidy hmeets htop] at hkey
    obtain ⟨encoding, hreach, hof⟩ := hkey
    exact ⟨encoding, hof, hof ▸ h.find?_of_reach htidy hreach⟩
  same key hkey := h.same (under_eq hinv h htidy hmeets htop ▸ hkey)
  nodup := h.trace.nodup
  novel key := under_eq hinv h htidy hmeets htop ▸ h.mem_novel_iff htidy key
  order _ _ hupper hlarge hlower hlarge' hnovel hnovel' :=
    sublist_novel hinv h htidy hmeets htop hupper hlarge hlower hlarge' hnovel hnovel'

end

end Site.Finished

end CellGraph
