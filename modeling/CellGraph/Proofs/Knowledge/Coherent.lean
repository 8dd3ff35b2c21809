import CellGraph.Link.Resolution
import CellGraph.Proofs.Cell.Canonicity
import CellGraph.Proofs.Cell.RoundTrip
import CellGraph.Proofs.Computation.Law
import Mathlib.Order.Defs.LinearOrder

/-!
# Coherent knowledge

What is known is filed under labels, so the links in use must have labels of their own, and what is
filed under the label of a link must be about its target.

* `Cell.Within`: cells all of whose links are in use;
* `Coherent`: knowledge that fits the links in use;
* `Knowledge.Grows`, `Knowledge.Learns`: how knowledge moves on;
* `Knowledge.law`: the law that all computations on cells keep.
-/

namespace CellGraph

/-- The status that is filed under a label. -/
def Knowledge.statusAt (known : Knowledge) (label : Label) : Status :=
  known.statuses.getD label .unknown

/-- A good cell, all of whose links are in use. -/
structure Cell.Within (good : Cell → Prop) (held : Set Link) (cell : Cell) : Prop where
  good : good cell
  links : ∀ link ∈ cell.everyLink, link ∈ held

/-- What is known fits the links that are in use, and the cells that they lead to are good. -/
structure Coherent (good : Cell → Prop) (held : Set Link) (known : Knowledge) : Prop where
  label_lt : ∀ link ∈ held, link.label < known.next
  label_inj : ∀ a ∈ held, ∀ b ∈ held, a.label = b.label → a = b
  target : ∀ link ∈ held, ∀ t, link.target? = some t → t.Within good held
  kept : ∀ (label : Label) (cell : Cell), known.kept[label]? = some cell →
    label < known.next ∧ cell.isSmall = false ∧ cell.Within good held
  digest : ∀ link ∈ held, ∀ cell, known.resident link = some cell → cell.digest = link.digest
  status : ∀ label, known.next ≤ label → known.statusAt label = .unknown

/-- Knowledge only grows. -/
structure Knowledge.Grows (known known' : Knowledge) : Prop where
  next : known.next ≤ known'.next
  status : ∀ label, known.statusAt label ≤ known'.statusAt label
  kept : ∀ (label : Label) (cell : Cell),
    known.kept[label]? = some cell → known'.kept[label]? = some cell

/-- Knowledge grows, but no link is found to be stored that was not. -/
structure Knowledge.Learns (known known' : Knowledge) : Prop
    extends Knowledge.Grows known known' where
  stored : ∀ label, .stored ≤ known'.statusAt label → known'.statusAt label = known.statusAt label

/-! ### Orders -/

namespace Status

theorem toNat_injective {a b : Status} (h : a.toNat = b.toNat) : a = b := by
  have := congrArg ofNat? h
  rwa [ofNat?_toNat, ofNat?_toNat, Option.some.injEq] at this

instance : LinearOrder Status where
  le_refl a := Nat.le_refl _
  le_trans _ _ _ := Nat.le_trans
  lt_iff_le_not_ge _ _ := Nat.lt_iff_le_and_not_ge
  le_antisymm _ _ h h' := toNat_injective (Nat.le_antisymm h h')
  le_total _ _ := Nat.le_total ..
  toDecidableLE := inferInstance

theorem max_eq (a b : Status) : Status.max a b = Max.max a b := by
  rw [max_def]
  rfl

end Status

namespace Knowledge

variable {known known' known'' : Knowledge}

theorem Grows.refl (known : Knowledge) : known.Grows known :=
  ⟨Nat.le_refl _, fun _ => le_rfl, fun _ _ h => h⟩

theorem Grows.trans (h : known.Grows known') (h' : known'.Grows known'') : known.Grows known'' :=
  ⟨h.next.trans h'.next, fun label => (h.status label).trans (h'.status label),
    fun label cell hcell => h'.kept label cell (h.kept label cell hcell)⟩

/-- A link goes on holding what it holds. -/
theorem Grows.resident (h : known.Grows known') {link : Link} {cell : Cell}
    (hcell : known.resident link = some cell) : known'.resident link = some cell := by
  cases link with
  | direct => exact hcell
  | soft label digest => exact h.kept label cell hcell

/-- A link that holds nothing did not hold anything before. -/
theorem Grows.resident_eq_none (h : known.Grows known') {link : Link}
    (hresident : known'.resident link = none) : known.resident link = none := by
  cases hheld : known.resident link with
  | none => rfl
  | some cell =>
    rw [h.resident hheld] at hresident
    cases hresident

theorem Learns.refl (known : Knowledge) : known.Learns known :=
  ⟨.refl known, fun _ _ => rfl⟩

/-- More labels are used. -/
theorem Learns.of_next {known : Knowledge} {next : Label} (h : known.next ≤ next) :
    known.Learns { known with next } :=
  ⟨⟨h, fun _ => le_rfl, fun _ _ h => h⟩, fun _ _ => rfl⟩

theorem Learns.trans (h : known.Learns known') (h' : known'.Learns known'') :
    known.Learns known'' := by
  refine ⟨h.toGrows.trans h'.toGrows, fun label hstored => ?_⟩
  have heq := h'.stored label hstored
  rw [heq] at hstored ⊢
  exact h.stored label hstored

end Knowledge

/-- Knowledge grows, and links that come into use have labels that were not used. -/
structure Knowledge.Moves (held : Set Link) (known : Knowledge) (held' : Set Link)
    (known' : Knowledge) : Prop where
  learns : known.Learns known'
  fresh : ∀ link ∈ held', link ∉ held → known.next ≤ link.label

theorem Knowledge.Learns.moves {known known' : Knowledge} (h : known.Learns known')
    {held : Set Link} : Knowledge.Moves held known held known' :=
  ⟨h, fun _ hlink hnot => absurd hlink hnot⟩

/--
The law of computations on cells: what is known stays coherent, and nothing is found to be stored.
-/
def Knowledge.law (good : Cell → Prop) : Law Knowledge where
  inv := Coherent good
  le := Knowledge.Moves
  refl _ known := (Knowledge.Learns.refl known).moves
  trans {_ held' _ _ _ _} h h' := by
    refine ⟨h.learns.trans h'.learns, fun link hlink hnot => ?_⟩
    by_cases hheld : link ∈ held'
    · exact h.fresh link hheld hnot
    · exact Nat.le_trans h.learns.next (h'.fresh link hlink hheld)

variable {good : Cell → Prop} {held held' : Set Link} {known known' : Knowledge}

theorem Cell.Within.mono {cell : Cell} (h : cell.Within good held) (hsub : held ⊆ held') :
    cell.Within good held' :=
  ⟨h.good, fun link hlink => hsub (h.links link hlink)⟩

theorem Coherent.everyLink (h : Coherent good held known) {link : Link} (hlink : link ∈ held) :
    ∀ other ∈ link.everyLink, other ∈ held := by
  intro other hother
  rcases Link.mem_everyLink.1 hother with rfl | ⟨t, ht, hother⟩
  · exact hlink
  · exact (h.target link hlink t ht).links other hother

/-- A cell with links that are in use. -/
theorem Coherent.within (h : Coherent good held known) {cell : Cell} (hgood : good cell)
    (hlinks : ∀ link ∈ cell.links, link ∈ held) : cell.Within good held := by
  refine ⟨hgood, fun other hother => ?_⟩
  obtain ⟨link, hlink, hother⟩ := Cell.mem_everyLink.1 hother
  exact h.everyLink (hlinks link hlink) other hother

theorem Coherent.resident (h : Coherent good held known) {link : Link} (hlink : link ∈ held)
    {cell : Cell} (hcell : known.resident link = some cell) : cell.Within good held := by
  cases link with
  | direct label target => exact h.target _ hlink cell hcell
  | soft label digest => exact (h.kept label cell hcell).2.2

/-- The same knowledge, seen with fewer links in use and with another idea of what is good. -/
theorem Coherent.restrict {good' : Cell → Prop} (h : Coherent good held known) (hsub : held' ⊆ held)
    (hclosed : ∀ link ∈ held', ∀ other ∈ link.everyLink, other ∈ held')
    (htarget : ∀ link ∈ held', ∀ t, link.target? = some t → good' t)
    (hkept : ∀ (label : Label) (cell : Cell), known.kept[label]? = some cell →
      cell.Within good' held') :
    Coherent good' held' known := by
  refine ⟨fun link hlink => h.label_lt link (hsub hlink),
    fun a ha b hb => h.label_inj a (hsub ha) b (hsub hb), fun link hlink t ht => ?_,
    fun label cell hcell => ?_, fun link hlink => h.digest link (hsub hlink), h.status⟩
  · exact ⟨htarget link hlink t ht, fun other hother =>
      hclosed link hlink other (Link.mem_everyLink.2 (.inr ⟨t, ht, hother⟩))⟩
  · obtain ⟨hlt, hlarge, -⟩ := h.kept label cell hcell
    exact ⟨hlt, hlarge, hkept label cell hcell⟩

/-! ### Changes of what is known -/

/-- Nothing changes but what is noted of digests and encodings. -/
structure Knowledge.Notes (known known' : Knowledge) : Prop where
  next : known'.next = known.next
  statuses : known'.statuses = known.statuses
  kept : known'.kept = known.kept

theorem Knowledge.Notes.refl (known : Knowledge) : known.Notes known := ⟨rfl, rfl, rfl⟩

theorem Knowledge.Notes.trans {known'' : Knowledge} (h : known.Notes known')
    (h' : known'.Notes known'') : known.Notes known'' :=
  ⟨h'.next.trans h.next, h'.statuses.trans h.statuses, h'.kept.trans h.kept⟩

theorem Knowledge.Notes.learns (h : known.Notes known') : known.Learns known' := by
  have hstatus : ∀ label, known'.statusAt label = known.statusAt label := fun label => by
    rw [statusAt, statusAt, h.statuses]
  refine ⟨⟨h.next.ge, fun label => ?_, fun _ _ hcell => h.kept ▸ hcell⟩,
    fun label _ => hstatus label⟩
  rw [hstatus]

theorem Knowledge.Notes.resident_eq (h : known.Notes known') :
    known'.resident = known.resident := by
  funext link
  cases link with
  | direct => rfl
  | soft label digest => rw [resident, resident, h.kept]

theorem Coherent.notes (h : Coherent good held known) (hnotes : known.Notes known') :
    Coherent good held known' := by
  refine ⟨?_, h.label_inj, h.target, ?_, ?_, ?_⟩
  · rw [hnotes.next]
    exact h.label_lt
  · rw [hnotes.next, hnotes.kept]
    exact h.kept
  · rw [hnotes.resident_eq]
    exact h.digest
  · intro label hlabel
    rw [Knowledge.statusAt, hnotes.statuses]
    exact h.status label (hnotes.next ▸ hlabel)

/-- Links with labels that have not been used come into use. -/
theorem Coherent.extend (h : Coherent good held known) (fresh : Set Link) {next : Label}
    (hnext : known.next ≤ next)
    (hlabel : ∀ link ∈ fresh, known.next ≤ link.label ∧ link.label < next)
    (hinj : ∀ a ∈ fresh, ∀ b ∈ fresh, a.label = b.label → a = b)
    (htarget : ∀ link ∈ fresh, ∀ t, link.target? = some t → t.Within good (held ∪ fresh)) :
    Coherent good (held ∪ fresh) { known with next } := by
  constructor
  · rintro link (hlink | hlink)
    · exact Nat.lt_of_lt_of_le (h.label_lt link hlink) hnext
    · exact (hlabel link hlink).2
  · -- A label in use is below `known.next`, and a fresh one is not.
    rintro a (ha | ha) b (hb | hb) heq
    · exact h.label_inj a ha b hb heq
    · exact absurd heq (Nat.ne_of_lt (Nat.lt_of_lt_of_le (h.label_lt a ha) (hlabel b hb).1))
    · exact absurd heq (Nat.ne_of_gt (Nat.lt_of_lt_of_le (h.label_lt b hb) (hlabel a ha).1))
    · exact hinj a ha b hb heq
  · rintro link (hlink | hlink) t ht
    · exact (h.target link hlink t ht).mono Set.subset_union_left
    · exact htarget link hlink t ht
  · intro label cell hcell
    obtain ⟨hlt, hlarge, hwithin⟩ := h.kept label cell hcell
    exact ⟨Nat.lt_of_lt_of_le hlt hnext, hlarge, hwithin.mono Set.subset_union_left⟩
  · rintro link (hlink | hlink) cell hcell
    · exact h.digest link hlink cell hcell
    · cases link with
      | direct label target =>
        cases hcell
        rfl
      | soft label digest =>
        exact absurd (h.kept label cell hcell).1 (Nat.not_lt.2 (hlabel _ hlink).1)
  · exact fun label hle => h.status label (hnext.trans hle)

theorem Knowledge.statusAt_advance (known : Knowledge) (link : Link) (status : Status)
    (label : Label) :
    (known.advance link status).statusAt label =
      if link.label = label then (known.statusAt label).max status else known.statusAt label :=
  known.status_advance link (.soft label default) status

theorem Knowledge.Grows.advance (known : Knowledge) (link : Link) (status : Status) :
    known.Grows (known.advance link status) := by
  refine ⟨le_rfl, fun label => ?_, fun _ _ h => h⟩
  rw [statusAt_advance]
  split
  · rw [Status.max_eq]
    exact le_max_left _ _
  · exact le_rfl

/-- The status of a link is raised. -/
theorem Coherent.advance (h : Coherent good held known) {link : Link} (hlink : link ∈ held)
    (status : Status) : Coherent good held (known.advance link status) := by
  refine ⟨h.label_lt, h.label_inj, h.target, h.kept, ?_, fun label hle => ?_⟩
  · rw [Knowledge.resident_advance]
    exact h.digest
  · rw [Knowledge.statusAt_advance, if_neg]
    · exact h.status label hle
    · rintro rfl
      exact absurd (h.label_lt link hlink) (Nat.not_lt.2 hle)

theorem Knowledge.Learns.advance_verified (known : Knowledge) (link : Link) :
    known.Learns (known.advance link .verified) := by
  refine ⟨.advance known link .verified, fun label hstored => ?_⟩
  rw [statusAt_advance] at hstored ⊢
  split at hstored
  · next heq =>
    rw [if_pos heq]
    cases hstatus : known.statusAt label <;> rw [hstatus] at hstored <;> first
      | rfl
      | exact absurd hstored (by decide)
  · next hne => rw [if_neg hne]

theorem Knowledge.kept_keep (known : Knowledge) (link : Link) (cell : Cell) (label : Label) :
    (known.keep link cell).kept[label]? =
      if link.label = label ∧ known.kept[label]? = none then some cell else known.kept[label]? := by
  rw [keep, Std.TreeMap.getElem?_insertIfNew]
  refine if_congr ?_ rfl rfl
  rw [Std.LawfulEqCmp.compare_eq_iff_eq, Std.TreeMap.mem_iff_isSome_getElem?]
  constructor
  · rintro ⟨rfl, habsent⟩
    exact ⟨rfl, by simpa using habsent⟩
  · rintro ⟨rfl, habsent⟩
    exact ⟨rfl, by simp [habsent]⟩

/-- A soft link comes to hold its target. -/
theorem Coherent.keep (h : Coherent good held known) {link : Link} {cell : Cell}
    (hlink : link ∈ held) (hcell : cell.Within good held) (hlarge : cell.isSmall = false)
    (hdigest : cell.digest = link.digest) : Coherent good held (known.keep link cell) := by
  refine ⟨h.label_lt, h.label_inj, h.target, ?_, ?_, h.status⟩
  · intro label found hfound
    rw [Knowledge.kept_keep] at hfound
    split at hfound
    · next heq =>
      cases hfound
      exact ⟨heq.1 ▸ h.label_lt link hlink, hlarge, hcell⟩
    · exact h.kept label found hfound
  · intro other hother found hfound
    cases other with
    | direct => exact h.digest _ hother found hfound
    | soft label digest =>
      rw [Knowledge.resident, Knowledge.kept_keep] at hfound
      split at hfound
      · next heq =>
        -- Links in use with one label are one link, so the digest is the one that was checked.
        cases hfound
        rw [hdigest, h.label_inj link hlink _ hother heq.1]
      · exact h.digest _ hother found hfound

theorem Knowledge.Learns.keep (known : Knowledge) (link : Link) (cell : Cell) :
    known.Learns (known.keep link cell) := by
  refine ⟨⟨le_rfl, fun _ => le_rfl, fun label found hfound => ?_⟩, fun _ _ => rfl⟩
  rw [kept_keep, if_neg]
  · exact hfound
  · rw [hfound]
    simp

end CellGraph
