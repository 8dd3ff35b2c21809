import CellGraph.Proofs.Cell.Entry
import CellGraph.Proofs.Computation.EndsWhere
import CellGraph.Proofs.Query.Replication
import Mathlib.Data.List.Dedup
import Mathlib.Data.List.Find

/-!
# Maps are finite functions

A map gives one value, or none, for each key, and binding or removing a key changes what it gives for
that key and for no other. Maps with the same bindings are written alike, however they were made.
What a map gives may be missing, as its keys and values may be links that hold nothing: then it is
missing from the changed map as well.

* `Cell.answer`, `Cell.lastValue`: what a map gives for a key, and what a list of bindings does;
* `Cell.Tabulates`, `Cell.Binds`, `Cell.Unbinds`: what a map of bindings, and a changed map, give;
* `Cell.tabulates_makeMap`, `Cell.encode_makeMap`: maps of bindings;
* `Cell.exists_insert`, `Cell.exists_erase`: changed maps;
* `Chronicle.Reached.mapping`: all maps that can come about.
-/

namespace CellGraph

open Attempt

namespace Cell

/-! ### What a map gives -/

/-- What is found in a map for a key. -/
def answer (map key : Cell) (known : Knowledge) : Except Fault (Option Cell) :=
  ((map.find? key).run.run known).1

/-- The value in the last of the bindings of a key. -/
def lastValue (bindings : List (Cell × Cell)) (key : Cell) : Option Cell :=
  (bindings.reverse.find? fun binding => binding.1.encode = key.encode).map Prod.snd

/--
This is a map of the bindings: its keys are in order, one entry for each, and for each of these keys
it gives the value in the last of its bindings, or none.
-/
structure Tabulates (keys : Set Cell) (bindings : List (Cell × Cell)) (map : Cell) : Prop where
  ordered : ∃ entries, map.value = .map entries ∧
    entries.Pairwise fun a b => a.1.digest < b.1.digest
  size : map.size = .ok (bindings.map fun binding => binding.1.encode).dedup.length
  answers : ∀ key ∈ keys, ∀ known, map.answer key known = .ok (lastValue bindings key)

/--
For this key the result gives the value, whatever is known, and for all others what the map gives. It
has one binding more, unless the key was bound.
-/
structure Binds (map key value result : Cell) : Prop where
  answers : ∀ (other : Cell) (known : Knowledge), result.answer other known =
    if key.digest = other.digest then .ok (some value) else map.answer other known
  grown : ∀ known, map.answer key known = .ok none →
    ∃ n, map.size = .ok n ∧ result.size = .ok (n + 1)
  same : ∀ known, map.answer key known ≠ .ok none → result.size = map.size

/--
For this key the result gives none, whatever is known, and for all others what the map gives. It has
one binding less, if the key was bound.
-/
structure Unbinds (map key result : Cell) : Prop where
  answers : ∀ (other : Cell) (known : Knowledge), result.answer other known =
    if key.digest = other.digest then .ok none else map.answer other known
  shrunk : ∀ known, map.answer key known ≠ .ok none →
    ∃ n, map.size = .ok (n + 1) ∧ result.size = .ok n
  same : ∀ known, map.answer key known = .ok none → result.size = map.size

variable {map key value : Cell} {entries : List Entry} {known : Knowledge}

theorem size_eq (h : map.value = .map entries) : map.size = .ok entries.length := by
  rw [size, entries?, h]
  rfl

/-- A map gives what the value of the entry of the key holds. -/
theorem answer_eq (h : map.value = .map entries) (key : Cell) (known : Knowledge) :
    map.answer key known =
      Link.heldOption known.resident ((Entry.find? key.digest entries).map Prod.snd) := by
  obtain ⟨hanswer, -⟩ := map.endsWhere_find key known rfl
  rw [answer, hanswer, bound, entries?, h]
  rfl

/-- A link that was made with its target gives it, whatever is known. -/
theorem heldOption_of_target {link : Link} (h : link.target? = some value) :
    Link.heldOption known.resident (some link) = .ok (some value) := by
  rw [Link.heldOption, Link.held_eq_ok_iff.2 (Knowledge.resident_of_target h)]
  rfl

/-- A map gives none only where there is no entry. -/
theorem answer_eq_none_iff (h : map.value = .map entries) :
    map.answer key known = .ok none ↔ Entry.find? key.digest entries = none := by
  rw [answer_eq h]
  cases Entry.find? key.digest entries with
  | none => simp [Link.heldOption]
  | some entry =>
    cases hheld : entry.2.held known.resident <;> simp [Link.heldOption, hheld]

/-- Where the same is held, a map gives the same. -/
theorem answer_congr {known' : Knowledge} (h : known'.resident = known.resident) (map key : Cell) :
    map.answer key known' = map.answer key known := by
  obtain ⟨hafter, -⟩ := map.endsWhere_find key known' rfl
  obtain ⟨hbefore, -⟩ := map.endsWhere_find key known rfl
  rw [answer, answer, hafter, hbefore, h]

/-! ### Changed maps -/

/-- A key can be bound in every map. -/
theorem endsWhere_insert {resident : Link → Option Cell} (h : map.value = .map entries)
    (key value : Cell) :
    (map.insert key value).EndsWhere resident fun outcome =>
      ∃ result, outcome = .ok result ∧ map.Inserts key value result := by
  have hmap : map.entries? = .ok entries := by rw [entries?, h]
  have hentry : (liftM (makeEntry key value) : Attempt Entry).EndsWhere resident fun outcome =>
      ∃ new : Entry, outcome = .ok new ∧ new.1.target? = some key ∧ new.2.target? = some value :=
    fun known _ => ⟨⟨_, rfl, rfl, rfl⟩, Calc.Idle.makeEntry key value known⟩
  unfold insert
  refine EndsWhere.ofExcept.bind (by simp [hmap]) fun _ hfound => ?_
  cases hmap.symm.trans hfound.symm
  refine hentry.bind ?_ ?_
  · rintro fault ⟨_, ⟨⟩, -⟩
  rintro new ⟨_, ⟨⟩, hkey, hvalue⟩
  refine (EndsWhere.noteKeys entries).bind (by rintro fault ⟨⟩) fun _ _ =>
    (EndsWhere.make _).mono ?_
  rintro _ ⟨result, rfl, hresult⟩
  exact ⟨result, rfl, entries, new, h, hkey, hvalue, hresult⟩

/-- A key can be removed from every map. -/
theorem endsWhere_erase {resident : Link → Option Cell} (h : map.value = .map entries)
    (key : Cell) :
    (map.erase key).EndsWhere resident fun outcome =>
      ∃ result, outcome = .ok result ∧ map.Erases key result := by
  have hmap : map.entries? = .ok entries := by rw [entries?, h]
  unfold erase
  refine EndsWhere.ofExcept.bind (by simp [hmap]) fun _ hfound => ?_
  cases hmap.symm.trans hfound.symm
  refine (EndsWhere.notes key.onlyNotes_hash key.fst_hash).bind (by rintro fault ⟨⟩)
    fun _ hdigest => ?_
  cases hdigest
  refine (EndsWhere.noteKeys entries).bind (by rintro fault ⟨⟩) fun _ _ => ?_
  cases hfind : Entry.find? key.digest entries with
  | none => exact .pure ⟨map, rfl, entries, h, .inl ⟨hfind, rfl⟩⟩
  | some entry =>
    refine (EndsWhere.make _).mono ?_
    rintro _ ⟨result, rfl, hresult⟩
    exact ⟨result, rfl, entries, h, .inr ⟨by simp [hfind], hresult⟩⟩

/-- Where no entry is found, none stands at the place. -/
theorem old_eq_none {before after : List Entry} {old : Option Entry}
    (hplace : Entry.Place key.digest entries before old after) (h : map.value = .map entries) :
    map.answer key known = .ok none ↔ old = none := by
  rw [answer_eq_none_iff h, hplace.find?_eq]

/-- A map with a key bound gives its value for the key, and has changed in nothing else. -/
theorem Inserts.binds {result : Cell} (hresult : map.Inserts key value result)
    (hascending : ∀ entries, map.value = .map entries → Entry.Ascending entries) :
    map.Binds key value result := by
  obtain ⟨entries, new, h, hkey, hvalue, hentries⟩ := hresult
  have hdigest : new.1.digest = key.digest := Link.digest_of_target hkey
  rw [hdigest] at hentries
  obtain ⟨before, old, after, hplace⟩ := (hascending entries h).exists_place key.digest
  have hsize : result.size = .ok (before.length + 1 + after.length) := by
    rw [size_eq hentries, (hplace.inserted hdigest).length_eq]
    rfl
  constructor
  · intro other known
    rw [answer_eq hentries, Entry.find?_insert hdigest]
    split
    · exact heldOption_of_target hvalue
    · exact (answer_eq h other known).symm
  · intro known hnone
    obtain rfl := (old_eq_none hplace h).1 hnone
    refine ⟨before.length + after.length, ?_, ?_⟩
    · rw [size_eq h, hplace.length_eq]
      rfl
    · rw [hsize, Nat.add_right_comm]
  · intro known hsome
    obtain ⟨entry, rfl⟩ := Option.ne_none_iff_exists'.1 (mt (old_eq_none hplace h).2 hsome)
    rw [hsize, size_eq h, hplace.length_eq]
    rfl

/-- A map without a key gives none for the key, and has changed in nothing else. -/
theorem Erases.unbinds {result : Cell} (hresult : map.Erases key result)
    (hascending : ∀ entries, map.value = .map entries → Entry.Ascending entries) :
    map.Unbinds key result := by
  obtain ⟨entries, h, -⟩ := id hresult
  have hentries := hresult.value_eq h
  obtain ⟨before, old, after, hplace⟩ := (hascending entries h).exists_place key.digest
  have hsize : result.size = .ok (before.length + after.length) := by
    rw [size_eq hentries, hplace.erased.length_eq]
    rfl
  constructor
  · intro other known
    rw [answer_eq hentries, Entry.find?_erase (hascending entries h)]
    split
    · rfl
    · exact (answer_eq h other known).symm
  · intro known hsome
    obtain ⟨entry, rfl⟩ := Option.ne_none_iff_exists'.1 (mt (old_eq_none hplace h).2 hsome)
    refine ⟨before.length + after.length, ?_, hsize⟩
    rw [size_eq h, hplace.length_eq, Nat.add_right_comm]
    rfl
  · intro known hnone
    obtain rfl := (old_eq_none hplace h).1 hnone
    rw [hsize, size_eq h, hplace.length_eq]
    rfl

/-- A key that is bound anew and then removed leaves the map as it was written. -/
theorem Inserts.encode_eq_of_erases {result undone : Cell}
    (hresult : map.Inserts key value result) (hundone : result.Erases key undone)
    (hascending : ∀ entries, map.value = .map entries → Entry.Ascending entries)
    (hnone : map.answer key known = .ok none) : undone.encode = map.encode := by
  obtain ⟨entries, new, h, hkey, -, hentries⟩ := hresult
  have hdigest : new.1.digest = key.digest := Link.digest_of_target hkey
  rw [hdigest] at hentries
  obtain ⟨before, old, after, hplace⟩ := (hascending entries h).exists_place key.digest
  obtain rfl := (old_eq_none hplace h).1 hnone
  have hrest : Entry.erase key.digest (Entry.insert key.digest new entries) = entries := by
    rw [(hplace.inserted hdigest).erase_eq, hplace.entries, Option.toList_none, List.append_nil]
  have hvalue := hundone.value_eq hentries
  rw [hrest] at hvalue
  rw [encode_of_value hvalue, encode_of_value h]

/-! ### Maps of bindings -/

/-- The entries that are made for bindings lead to their keys and values. -/
theorem forall₂_makeEntry (bindings : List (Cell × Cell)) (known : Knowledge) :
    List.Forall₂ (fun binding (entry : Entry) =>
        entry.1.target? = some binding.1 ∧ entry.2.target? = some binding.2) bindings
      ((bindings.mapM fun binding => makeEntry binding.1 binding.2).run known).1 := by
  induction bindings generalizing known with
  | nil => exact .nil
  | cons binding rest ih =>
    rw [List.mapM_cons]
    exact .cons ⟨rfl, rfl⟩ (ih _)

/-- What is found first among two lists that correspond corresponds. -/
theorem rel_find? {α β : Type} {R : α → β → Prop} {p : α → Bool} {q : β → Bool}
    (hpq : ∀ a b, R a b → p a = q b) {first : List α} {second : List β}
    (h : List.Forall₂ R first second) : Option.Rel R (first.find? p) (second.find? q) := by
  induction h with
  | nil => exact .none
  | cons hab _ ih =>
    rw [List.find?_cons, List.find?_cons, hpq _ _ hab]
    split
    · exact .some hab
    · exact ih

/-- Corresponding options are mapped to the same if corresponding values are. -/
theorem map_eq_of_rel {α β γ : Type} {R : α → β → Prop} {f : α → γ} {g : β → γ} {a : Option α}
    {b : Option β} (h : Option.Rel R a b) (hfg : ∀ x y, R x y → g y = f x) :
    b.map g = a.map f := by
  cases h with
  | none => rfl
  | some hxy => exact congrArg some (hfg _ _ hxy)

theorem isSome_iff_of_rel {α β : Type} {R : α → β → Prop} {a : Option α} {b : Option β}
    (h : Option.Rel R a b) : a.isSome ↔ b.isSome := by
  cases h <;> simp

theorem written_of_targets {binding : Cell × Cell} {entry : Entry}
    (h : entry.1.target? = some binding.1 ∧ entry.2.target? = some binding.2) :
    entry.written = (writtenChild binding.1.encode, writtenChild binding.2.encode) :=
  Prod.ext (Link.written_of_target h.1) (Link.written_of_target h.2)

/--
A map that is made of bindings has entries in order, and under each digest the last binding of a key
of that digest.
-/
theorem exists_makeMap (bindings : List (Cell × Cell)) (known : Knowledge) :
    ∃ entries, ((makeMap bindings).run known).1.value = .map entries ∧ Entry.Ascending entries ∧
      ∀ digest, Option.Rel (fun binding (entry : Entry) =>
          entry.1.target? = some binding.1 ∧ entry.2.target? = some binding.2)
        (bindings.reverse.find? fun binding => binding.1.digest = digest)
        (Entry.find? digest entries) := by
  refine ⟨_, rfl, Entry.ascending_ofList _, fun digest => ?_⟩
  rw [Entry.find?_ofBindings]
  refine rel_find? (fun binding entry hentry => ?_)
    (List.forall₂_reverse_iff.2 (forall₂_makeEntry bindings known))
  rw [Link.digest_of_target hentry.1]

/-- A map of bindings gives the value in the last binding under the digest of a key. -/
theorem answer_makeMap (bindings : List (Cell × Cell)) (known known' : Knowledge) (key : Cell) :
    ((makeMap bindings).run known).1.answer key known' =
      .ok ((bindings.reverse.find? fun binding => binding.1.digest = key.digest).map Prod.snd) := by
  obtain ⟨entries, hvalue, -, hfind⟩ := exists_makeMap bindings known
  have hrel := hfind key.digest
  rw [answer_eq hvalue]
  generalize Entry.find? key.digest entries = found at hrel
  generalize bindings.reverse.find? (fun binding => binding.1.digest = key.digest) = last at hrel
  cases hrel with
  | some htargets => exact heldOption_of_target htargets.2
  | none => rfl

/-- If the last bindings under each digest are written alike, so are the maps of the bindings. -/
theorem encode_makeMap_of_last {first second : List (Cell × Cell)}
    (hlast : ∀ digest,
      (first.reverse.find? fun binding => binding.1.digest = digest).map
          (fun binding => (writtenChild binding.1.encode, writtenChild binding.2.encode)) =
        (second.reverse.find? fun binding => binding.1.digest = digest).map
          fun binding => (writtenChild binding.1.encode, writtenChild binding.2.encode))
    (known known' : Knowledge) :
    ((makeMap first).run known).1.encode = ((makeMap second).run known').1.encode := by
  obtain ⟨entries, hvalue, hascending, hfind⟩ := exists_makeMap first known
  obtain ⟨entries', hvalue', hascending', hfind'⟩ := exists_makeMap second known'
  have hwritten : entries.map Entry.written = entries'.map Entry.written := by
    refine Entry.written_eq hascending hascending' fun digest => ?_
    rw [map_eq_of_rel (hfind digest) fun _ _ => written_of_targets,
      map_eq_of_rel (hfind' digest) fun _ _ => written_of_targets]
    exact hlast digest
  rw [encode_of_value hvalue, encode_of_value hvalue']
  exact congrArg (fun pairs => Value.write (.map pairs)) hwritten

section

variable {keys : Set Cell} {bindings first second : List (Cell × Cell)}
  (hinj : ∀ key ∈ keys, ∀ other ∈ keys, key.digest = other.digest → key.encode = other.encode)

include hinj

/-- Keys of one digest have one encoding, so the last binding of a key may be found by its digest. -/
theorem lastValue_eq (hkeys : ∀ binding ∈ bindings, binding.1 ∈ keys) (hkey : key ∈ keys) :
    lastValue bindings key =
      (bindings.reverse.find? fun binding => binding.1.digest = key.digest).map Prod.snd := by
  refine congrArg (Option.map Prod.snd) (List.find?_congr fun binding hbinding => ?_)
  have hmem := hkeys binding (List.mem_reverse.1 hbinding)
  refine decide_eq_decide.2 ⟨fun hencode => ?_, hinj binding.1 hmem key hkey⟩
  exact congrArg Digest.of hencode

omit hinj in
/-- The last binding under a digest has one of the keys. -/
theorem key_of_last (hkeys : ∀ binding ∈ bindings, binding.1 ∈ keys) {digest : Digest}
    {binding : Cell × Cell}
    (h : bindings.reverse.find? (fun binding => binding.1.digest = digest) = some binding) :
    binding.1 ∈ keys ∧ binding.1.digest = digest :=
  ⟨hkeys _ (List.mem_reverse.1 (List.mem_of_find?_eq_some h)), by simpa using List.find?_some h⟩

/-- If there is an entry under the digest of each key and under no other, there is one for each. -/
theorem length_entries {entries : List Entry} (hascending : Entry.Ascending entries)
    (hkeys : ∀ binding ∈ bindings, binding.1 ∈ keys)
    (hfound : ∀ digest, (Entry.find? digest entries).isSome ↔
      (bindings.reverse.find? fun binding => binding.1.digest = digest).isSome) :
    entries.length = (bindings.map fun binding => binding.1.encode).dedup.length := by
  have hdigests : (entries.map fun entry => entry.1.digest).Nodup := by
    refine List.pairwise_map.2 (hascending.imp fun {a b} hlt heq => ?_)
    exact Digest.lt_irrefl b.1.digest (by rwa [heq] at hlt)
  have hencodings : ((bindings.map fun binding => binding.1.encode).dedup.map Digest.of).Nodup := by
    refine (List.nodup_dedup _).map_on fun a ha b hb heq => ?_
    obtain ⟨first, hfirst, rfl⟩ := List.mem_map.1 (List.mem_dedup.1 ha)
    obtain ⟨second, hsecond, rfl⟩ := List.mem_map.1 (List.mem_dedup.1 hb)
    exact hinj _ (hkeys first hfirst) _ (hkeys second hsecond) heq
  have hperm : (entries.map fun entry => entry.1.digest).Perm
      ((bindings.map fun binding => binding.1.encode).dedup.map Digest.of) := by
    refine (List.perm_ext_iff_of_nodup hdigests hencodings).2 fun digest => ?_
    -- A digest is that of a key on either side if something is found under it.
    have hdigest : ∀ key : Cell, Digest.of key.encode = key.digest := fun _ => rfl
    have hiff := hfound digest
    rw [Entry.find?, List.find?_isSome, List.find?_isSome] at hiff
    simpa [hdigest] using hiff
  have hlength := hperm.length_eq
  rwa [List.length_map, List.length_map] at hlength

/-- A map of bindings gives the last value of each key, and has one entry for each key. -/
theorem tabulates_makeMap (hkeys : ∀ binding ∈ bindings, binding.1 ∈ keys) (known : Knowledge) :
    Tabulates keys bindings ((makeMap bindings).run known).1 := by
  obtain ⟨entries, hvalue, hascending, hfind⟩ := exists_makeMap bindings known
  refine ⟨⟨entries, hvalue, hascending⟩, ?_, fun key hkey known' => ?_⟩
  · rw [size_eq hvalue, length_entries hinj hascending hkeys
      fun digest => (isSome_iff_of_rel (hfind digest)).symm]
  · rw [answer_makeMap, lastValue_eq hinj hkeys hkey]

/-- If the last values are the same, the last bindings under each digest are written alike. -/
theorem written_last_eq (hfirst : ∀ binding ∈ first, binding.1 ∈ keys)
    (hsecond : ∀ binding ∈ second, binding.1 ∈ keys)
    (hlast : ∀ key ∈ keys,
      (lastValue first key).map Cell.encode = (lastValue second key).map Cell.encode)
    (digest : Digest) :
    (first.reverse.find? fun binding => binding.1.digest = digest).map
        (fun binding => (writtenChild binding.1.encode, writtenChild binding.2.encode)) =
      (second.reverse.find? fun binding => binding.1.digest = digest).map
        fun binding => (writtenChild binding.1.encode, writtenChild binding.2.encode) := by
  generalize hlast₁ : first.reverse.find? (fun binding => binding.1.digest = digest) = last₁
  generalize hlast₂ : second.reverse.find? (fun binding => binding.1.digest = digest) = last₂
  have hvalues : ∀ key ∈ keys, key.digest = digest →
      last₁.map (fun binding => binding.2.encode) = last₂.map fun binding => binding.2.encode := by
    rintro key hkey rfl
    have heq := hlast key hkey
    rw [lastValue_eq hinj hfirst hkey, lastValue_eq hinj hsecond hkey, hlast₁, hlast₂] at heq
    simpa only [Option.map_map, Function.comp_def] using heq
  cases last₁ with
  | some binding =>
    obtain ⟨hmem, hdigest⟩ := key_of_last hfirst hlast₁
    have hvalue := hvalues _ hmem hdigest
    cases last₂ with
    | none => cases hvalue
    | some other =>
      obtain ⟨hmem', hdigest'⟩ := key_of_last hsecond hlast₂
      have hkey := hinj _ hmem _ hmem' (hdigest.trans hdigest'.symm)
      simp only [Option.map_some, Option.some.injEq] at hvalue
      simp only [Option.map_some, hkey, hvalue]
  | none =>
    cases last₂ with
    | none => rfl
    | some other =>
      obtain ⟨hmem', hdigest'⟩ := key_of_last hsecond hlast₂
      cases hvalues _ hmem' hdigest'

/-- Bindings of the same last values make maps that are written alike, in whatever order they are. -/
theorem encode_makeMap (hfirst : ∀ binding ∈ first, binding.1 ∈ keys)
    (hsecond : ∀ binding ∈ second, binding.1 ∈ keys)
    (hlast : ∀ key ∈ keys,
      (lastValue first key).map Cell.encode = (lastValue second key).map Cell.encode)
    (known known' : Knowledge) :
    ((makeMap first).run known).1.encode = ((makeMap second).run known').1.encode :=
  encode_makeMap_of_last (written_last_eq hinj hfirst hsecond hlast) known known'

end

end Cell

namespace Chronicle

variable {ι : Type} [DecidableEq ι] {chronicle : Chronicle ι}

/--
Maps are finite functions, of which each has one written form. A map of bindings has its keys in
order, with one entry for each, and gives the value in the last binding of every key, or none. Lists
of bindings with the same last values make maps that are written alike. In every map that can come
about, whatever of it is held, any key can be bound to any value, and any key can be removed: what the
changed map gives for the key is the value, or none, and what it gives for other keys is what the map
gives, be it missing or not. Its size has changed by one if a binding has come or gone, and else it
has not. A new key that is removed again leaves a map that is written as the map was. The map itself
gives what it gave before.
-/
theorem Reached.mapping (h : chronicle.Reached)
    (hinj : Set.InjOn Digest.of chronicle.session.encodings) :
    (∀ bindings : List (Cell × Cell), (∀ binding ∈ bindings, binding.1 ∈ chronicle.session.cells) →
      ∀ known : Knowledge, Cell.Tabulates chronicle.session.cells bindings
        ((Cell.makeMap bindings).run known).1) ∧
    (∀ first second : List (Cell × Cell),
      (∀ binding ∈ first, binding.1 ∈ chronicle.session.cells) →
      (∀ binding ∈ second, binding.1 ∈ chronicle.session.cells) →
      (∀ key ∈ chronicle.session.cells, (Cell.lastValue first key).map Cell.encode =
        (Cell.lastValue second key).map Cell.encode) →
      ∀ known known' : Knowledge,
        ((Cell.makeMap first).run known).1.encode = ((Cell.makeMap second).run known').1.encode) ∧
    ∀ map ∈ chronicle.session.cells, (∃ entries, map.value = .map entries) →
      ∀ (key value : Cell) (known : Knowledge),
        (∃ result known', (map.insert key value).run.run known = (.ok result, known') ∧
          map.Binds key value result ∧
          (∀ other, map.answer other known' = map.answer other known) ∧
          (map.answer key known = .ok none → ∀ later : Knowledge, ∃ undone later',
            (result.erase key).run.run later = (.ok undone, later') ∧
              undone.encode = map.encode)) ∧
        ∃ result known', (map.erase key).run.run known = (.ok result, known') ∧
          map.Unbinds key result ∧ ∀ other, map.answer other known' = map.answer other known := by
  have hkeys : ∀ key ∈ chronicle.session.cells, ∀ other ∈ chronicle.session.cells,
      key.digest = other.digest → key.encode = other.encode :=
    fun key hkey other hother => hinj (.inl ⟨key, hkey, rfl⟩) (.inl ⟨other, hother, rfl⟩)
  refine ⟨fun bindings hbindings => Cell.tabulates_makeMap hkeys hbindings,
    fun first second hfirst hsecond hlast => Cell.encode_makeMap hkeys hfirst hsecond hlast, ?_⟩
  rintro map hmap ⟨entries, hvalue⟩ key value known
  have hascending : ∀ entries, map.value = .map entries → Entry.Ascending entries := by
    intro entries hvalue
    have hvalid := (h.inv.usable.valid hmap).good
    obtain ⟨hcanonical, -⟩ := (Value.validate_eq_ok_iff _).1 hvalid
    rw [hvalue] at hcanonical
    exact (Entry.isCanonical_iff _ entries).1 hcanonical
  constructor
  · obtain ⟨⟨result, hresult, hinserts⟩, hidles⟩ :=
      Cell.endsWhere_insert hvalue key value known rfl
    refine ⟨result, _, Prod.ext hresult rfl, hinserts.binds hascending,
      fun other => Cell.answer_congr hidles.resident_eq map other, fun hnone later => ?_⟩
    obtain ⟨_, _, -, -, -, hentries⟩ := id hinserts
    obtain ⟨⟨undone, hundone, herases⟩, -⟩ := Cell.endsWhere_erase hentries key later rfl
    exact ⟨undone, _, Prod.ext hundone rfl,
      hinserts.encode_eq_of_erases herases hascending hnone⟩
  · obtain ⟨⟨result, hresult, herases⟩, hidles⟩ := Cell.endsWhere_erase hvalue key known rfl
    exact ⟨result, _, Prod.ext hresult rfl, herases.unbinds hascending,
      fun other => Cell.answer_congr hidles.resident_eq map other⟩

/-! ### A map with a value that is not held -/

def oneCell : Cell := .mk 0 (.integer 1)

def twoCell : Cell := .mk 1 (.integer 2)

/-- Two integers are made, and a map is read in which one has a value that is not held. -/
def looseOperations : List Operation :=
  [.integer 1, .integer 2,
    .decode (Cell.encode (.mk 0 (.map [(.direct 0 oneCell, .soft 0 Digest.absent)])))]

/-- A user who has the integers and the map. -/
def loose : Chronicle Unit where
  session := (looseOperations.map Request.cells).foldl Session.perform
    { stores := fun _ => .emptyTable }

/-- The map that has been read. -/
def looseMap : Cell := (cellAt loose.session 2).getD oneCell

set_option maxRecDepth 20000 in
theorem loose_evaluated :
    Session.FitsThroughout [()] { stores := fun _ => .emptyTable }
      (looseOperations.map Request.cells) ∧
    (∀ a ∈ loose.session.everyEncoding [()], ∀ b ∈ loose.session.everyEncoding [()],
      Digest.of a = Digest.of b → a = b) ∧
    (cellAt loose.session 2).isSome ∧ looseMap.value.kind = .map ∧
    twoCell.digest ≠ oneCell.digest ∧
    (looseMap.answer oneCell loose.session.known).isOk = false := by
  decide +kernel

set_option maxRecDepth 20000 in
theorem reached_loose : loose.Reached :=
  (reached_start fun _ => .inr rfl).operations Session.mem_unit looseOperations loose_evaluated.1
    ⟨nofun, nofun, nofun, trivial⟩

theorem mem_looseMap : .cell looseMap ∈ loose.session.items := by
  obtain ⟨-, -, hmap, -⟩ := loose_evaluated
  obtain ⟨cell, hmap⟩ := Option.isSome_iff_exists.1 hmap
  rw [looseMap, hmap]
  exact mem_items_of_cellAt hmap

set_option maxRecDepth 20000 in
/--
A new key is bound in the map, and the value that it lacks is lacking still. Of two values for a key
the map of both bindings gives the last one.
-/
theorem looseMap_mapped :
    Set.InjOn Digest.of loose.session.encodings ∧
      (∃ result known', (looseMap.insert twoCell oneCell).run.run loose.session.known =
          (.ok result, known') ∧
        result.answer twoCell known' = .ok (some oneCell) ∧
        (result.answer oneCell known').isOk = false) ∧
      (((Cell.makeMap [(oneCell, oneCell), (oneCell, twoCell)]).run loose.session.known).1.answer
        oneCell {}) = .ok (some twoCell) := by
  obtain ⟨-, hencodings, -, hkind, hkeys, hlacking⟩ := loose_evaluated
  have hinj : Set.InjOn Digest.of loose.session.encodings :=
    Session.injOn_of_everyEncoding Session.mem_unit hencodings
  obtain ⟨hmake, -, hchange⟩ := reached_loose.mapping hinj
  have hone : oneCell ∈ loose.session.cells := .inl (Session.mem_items_of_places [0] rfl _
    (List.mem_singleton_self _))
  refine ⟨hinj, ?_, ?_⟩
  · have hvalue : ∃ entries, looseMap.value = .map entries := by
      cases hvalue : looseMap.value <;> rw [hvalue] at hkind <;> cases hkind
      exact ⟨_, rfl⟩
    obtain ⟨⟨result, known', hrun, hbinds, hkept, -⟩, -⟩ :=
      hchange looseMap (.inl mem_looseMap) hvalue twoCell oneCell loose.session.known
    refine ⟨result, known', hrun, ?_, ?_⟩
    · rw [hbinds.answers, if_pos rfl]
    · rw [hbinds.answers, if_neg hkeys, hkept]
      exact hlacking
  · have htable := hmake [(oneCell, oneCell), (oneCell, twoCell)] (by simp [hone])
      loose.session.known
    rw [htable.answers oneCell hone, Cell.lastValue]
    simp

end Chronicle

end CellGraph
