import CellGraph.Proofs.Store.Origin
import Mathlib.Logic.Relation

/-!
# How encodings refer to one another

An encoding refers to another one by naming its digest, for the cell itself or for a cell that is
inline in it. A store is whole if whatever its entries refer to, at any depth, has an entry as well,
and no entry refers to itself in the end.

* `Refers`, `Depends`, `Encloses`: references between encodings, in one step and in many;
* `Tidy`: encodings that are referred to only if they are too large to be inline;
* `Store.Complete`, `Store.Whole`: entries below which nothing is missing;
* `Store.Founded`: stores in which the names of an entry are backed with its status.
-/

namespace CellGraph

/-- An encoding names the digest of another one, which is among those that there are. -/
def Refers (known : Set Bytes) (a b : Bytes) : Prop := b ∈ known ∧ Digest.of b ∈ a.named

/-- An encoding refers to another one, perhaps through others. -/
abbrev Depends (known : Set Bytes) : Bytes → Bytes → Prop := Relation.TransGen (Refers known)

/-- An encoding has all the names of another one, as if that were inline, or refers to it. -/
def Encloses (known : Set Bytes) (a b : Bytes) : Prop := b.named ⊆ a.named ∨ Refers known a b

/-- Only encodings that are too large to be inline are referred to. -/
def Tidy (known : Set Bytes) : Prop :=
  ∀ a ∈ known, ∀ b, Refers known a b → maxEmbedded < b.length

section

variable {known known' : Set Bytes} {a b c : Bytes}

theorem Refers.mono (h : Refers known a b) (hsub : known ⊆ known') : Refers known' a b :=
  ⟨hsub h.1, h.2⟩

theorem Depends.mono (h : Depends known a b) (hsub : known ⊆ known') : Depends known' a b :=
  Relation.TransGen.mono (fun _ _ hab => Refers.mono hab hsub) _ _ h

theorem Depends.mem (h : Depends known a b) : b ∈ known := by
  cases h with
  | single hab => exact hab.1
  | tail _ hab => exact hab.1

/-- What an enclosed encoding refers to, all depend on that depend on what the other refers to. -/
theorem Encloses.depends (h : Encloses known a b) {root : Bytes}
    (hroot : ∀ c, Refers known a c → Depends known root c) (hbc : Refers known b c) :
    Depends known root c := by
  rcases h with hnames | hab
  · exact hroot c ⟨hbc.1, hnames hbc.2⟩
  · exact .tail (hroot b hab) hbc

theorem Tidy.mono (h : Tidy known') (hsub : known ⊆ known') : Tidy known :=
  fun a ha b hab => h a (hsub ha) b (hab.mono hsub)

theorem Tidy.depends (h : Tidy known) (ha : a ∈ known) (hab : Depends known a b) :
    maxEmbedded < b.length := by
  cases hab with
  | single hab => exact h a ha b hab
  | tail hac hcb => exact h _ (Depends.mem hac) b hcb

end

/-! ### Cells and links -/

section

variable {known : Set Bytes} {cell target : Cell} {link : Link}

/-- A cell encloses what is inline in it. -/
theorem Cell.encloses_of_inline (hcell : cell.Sound) (htarget : target.Sound)
    (hlink : link ∈ cell.links) (hinline : link.inline? = some target) :
    Encloses known cell.encode target.encode := by
  refine .inl fun digest hdigest => ?_
  rw [Cell.named_encode htarget] at hdigest
  rw [Cell.named_encode hcell]
  exact Cell.mem_named.2 ⟨link, hlink, Link.named_of_inline hinline ▸ hdigest⟩

/-- A cell refers to the targets of its other links. -/
theorem Cell.refers_of_not_inline (hcell : cell.Sound) (hlink : link ∈ cell.links)
    (hinline : link.inline? = none) (hdigest : target.digest = link.digest)
    (htarget : target.encode ∈ known) : Refers known cell.encode target.encode := by
  refine ⟨htarget, ?_⟩
  rw [Cell.named_encode hcell]
  refine Cell.mem_named.2 ⟨link, hlink, ?_⟩
  rw [Link.named_of_not_inline hinline, List.mem_singleton]
  exact hdigest

end

/-! ### Whole stores -/

namespace Store

/-- There is an entry for a digest, and, at every depth, for all that it names. -/
inductive Complete (store : Store) : Digest → Prop
  | entry {key : Digest} {encoding : Bytes} {status : Status}
    (find : store.find? key = some (encoding, status))
    (named : ∀ digest ∈ encoding.named, Complete store digest) : Complete store key

/-- Nothing is missing below any entry. -/
def Whole (store : Store) : Prop := ∀ key, (store.find? key).isSome → store.Complete key

/-- Every digest that an entry names has an entry. -/
def Closed (store : Store) : Prop :=
  ∀ key encoding status, store.find? key = some (encoding, status) →
    ∀ digest ∈ encoding.named, (store.find? digest).isSome

/-- Every digest that an entry names is backed with the status of the entry. -/
def Founded (store : Store) : Prop :=
  ∀ key encoding status, store.find? key = some (encoding, status) →
    ∀ digest ∈ encoding.named, store.Backs digest status

variable {store store' : Store} {key digest : Digest} {known : Set Bytes} {a b : Bytes}

theorem Backs.isSome {status : Status} (h : store.Backs digest status) :
    (store.find? digest).isSome := by
  obtain ⟨encoding, held, hentry, -⟩ := h
  rw [hentry]
  rfl

theorem Complete.isSome (h : store.Complete key) : (store.find? key).isSome := by
  obtain ⟨hfind, -⟩ := h
  rw [hfind]
  rfl

theorem Grows.isSome (h : store.Grows store') (hkey : (store.find? key).isSome) :
    (store'.find? key).isSome := by
  obtain ⟨⟨encoding, status⟩, hentry⟩ := Option.isSome_iff_exists.1 hkey
  obtain ⟨status', -, hentry'⟩ := h.entry key encoding status hentry
  rw [hentry']
  rfl

theorem Grows.find?_eq_none (h : store.Grows store') (hkey : store'.find? key = none) :
    store.find? key = none := by
  cases hentry : store.find? key with
  | none => rfl
  | some entry =>
    obtain ⟨status, -, hfound⟩ := h.entry key entry.1 entry.2 hentry
    rw [hkey] at hfound
    cases hfound

theorem Complete.mono (h : store.Complete key) (hgrows : store.Grows store') :
    store'.Complete key := by
  induction h with
  | entry find named ih =>
    obtain ⟨status', -, hentry⟩ := hgrows.entry _ _ _ find
    exact .entry hentry ih

theorem Whole.closed (h : store.Whole) : store.Closed := by
  intro key encoding status hentry digest hdigest
  obtain ⟨hfind, hnamed⟩ := h key (by rw [hentry]; rfl)
  rw [hentry] at hfind
  cases hfind
  exact (hnamed digest hdigest).isSome

theorem whole_of_empty (h : store = emptyMemory ∨ store = emptyTable) : store.Whole := by
  intro key hkey
  rcases h with rfl | rfl <;> cases hkey

/-- A store stays whole if a cell is written all of whose names have entries. -/
theorem Whole.insert (h : store.Whole) (hsound : store.Sound) {cell : Cell} (key : Digest)
    (status : Status)
    (hnamed : ∀ digest ∈ cell.encode.named, (store.find? digest).isSome) :
    (store.insert cell cell.encode key status).2.Whole := by
  have hgrows := hsound.legible.grows_insert cell key status
  intro other hother
  obtain ⟨⟨encoding, held⟩, hentry⟩ := Option.isSome_iff_exists.1 hother
  rcases hsound.legible.of_find?_insert hentry with ⟨previous, hprevious, -⟩ | ⟨-, -, rfl, -⟩
  · exact (h other (by rw [hprevious]; rfl)).mono hgrows
  · exact .entry hentry fun digest hdigest => (h digest (hnamed digest hdigest)).mono hgrows

/-- If the store is complete below what an encoding names, it is below all that it depends on. -/
theorem complete_of_depends (hsound : store.Sound)
    (hknown : ∀ key encoding status, store.find? key = some (encoding, status) → encoding ∈ known)
    (hinj : Set.InjOn Digest.of known) (hnamed : ∀ digest ∈ a.named, store.Complete digest)
    (hab : Depends known a b) : store.Complete (Digest.of b) := by
  induction hab with
  | single hab => exact hnamed _ hab.2
  | @tail b c hab hbc ih =>
    obtain ⟨hfind, hnames⟩ := ih
    have hsame := hinj (hknown _ _ _ hfind) (Depends.mem hab) (hsound.key _ _ _ hfind).symm
    rw [hsame] at hnames
    exact hnames _ hbc.2

/-- An encoding with a complete entry does not depend on itself. -/
theorem Complete.not_depends (h : store.Complete key) (hsound : store.Sound)
    (hknown : ∀ key encoding status, store.find? key = some (encoding, status) → encoding ∈ known)
    (hinj : Set.InjOn Digest.of known) (ha : a ∈ known) (hkey : key = Digest.of a) :
    ¬Depends known a a := by
  -- Going round the circle once leads to a name of the entry, from where the circle starts anew.
  induction h generalizing a with
  | @entry key encoding status find named ih =>
    have hentry : encoding = a :=
      hinj (hknown _ _ _ find) ha ((hsound.key _ _ _ find).symm.trans hkey)
    subst hentry
    intro hcircle
    obtain ⟨b, hab, hba⟩ := Relation.TransGen.head'_iff.1 hcircle
    exact ih _ hab.2 hab.1 rfl (Relation.TransGen.tail' hba hab)

/-- What an entry depends on has an entry, whose status is as high if it is too large. -/
theorem Founded.depends (h : store.Founded) (hsound : store.Sound)
    (hknown : ∀ key encoding status, store.find? key = some (encoding, status) → encoding ∈ known)
    (hinj : Set.InjOn Digest.of known) (htidy : Tidy known) {status : Status}
    (hentry : store.find? (Digest.of a) = some (a, status)) (hab : Depends known a b) :
    ∃ held, status ≤ held ∧ store.find? (Digest.of b) = some (b, held) := by
  have hstep : ∀ {a b : Bytes} {status : Status},
      store.find? (Digest.of a) = some (a, status) → Refers known a b →
      ∃ held, status ≤ held ∧ store.find? (Digest.of b) = some (b, held) := by
    intro a b status hentry hab
    obtain ⟨found, held, hfound, hheld⟩ := h _ _ _ hentry _ hab.2
    obtain rfl : found = b :=
      hinj (hknown _ _ _ hfound) hab.1 (hsound.key _ _ _ hfound).symm
    have hlarge := htidy a (hknown _ _ _ hentry) found hab
    exact ⟨held, hheld.resolve_right (Nat.not_le.2 hlarge), hfound⟩
  induction hab with
  | single hab => exact hstep hentry hab
  | tail _ hcb ih =>
    obtain ⟨held, hle, hfound⟩ := ih
    obtain ⟨held', hle', hfound'⟩ := hstep hfound hcb
    exact ⟨held', hle.trans hle', hfound'⟩

end Store

end CellGraph
