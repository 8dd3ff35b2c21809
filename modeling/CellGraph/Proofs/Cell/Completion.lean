import CellGraph.Proofs.Cell.Reread
import CellGraph.Proofs.Computation.Ends

/-!
# Cells of which more is held

One cell completes another one if both are built alike and the links of the first hold whatever
those of the second hold; it may hold more. A computation on the second one echoes the same one on
the first if it comes to an agreeing result, or fails in the same way, unless it stops for lack of a
cell that is not held.

* `Cell.Completes`: cells of which more is held, with links matched by `Link.Completes`;
* `Attempt.Echoes`: computations that come to the same where less is held, unless data is missing;
* `Attempt.Echoes.bind`, `Attempt.Echoes.guard`: compound computations;
* `Link.Completes.echoes_load`, `Cell.Completes.echoes_findDigest`, `Cell.Completes.echoes_toPairs`:
  questions to links and maps.
-/

namespace CellGraph

/-! ### Completing -/

/--
Two links of one kind. Whatever cell the second one holds, the first one holds a related one; where
the second holds nothing, the first may hold any cell.
-/
inductive Link.Completes (known known' : Knowledge) (related : Cell → Cell → Prop) :
    Link → Link → Prop
  | direct {label label' : Label} {target target' : Cell} (below : related target target') :
    Completes known known' related (.direct label target) (.direct label' target')
  | held {label label' : Label} {digest : Digest} {target target' : Cell}
    (resident : known.resident (.soft label digest) = some target)
    (resident' : known'.resident (.soft label' digest) = some target')
    (below : related target target') :
    Completes known known' related (.soft label digest) (.soft label' digest)
  | lacking {label label' : Label} {digest : Digest}
    (resident' : known'.resident (.soft label' digest) = none) :
    Completes known known' related (.soft label digest) (.soft label' digest)

/--
A cell, as it is held under `known`, is the other one, as that is held under `known'`, except that
more links may hold their targets, also below all links.
-/
def Cell.Completes (known known' : Knowledge) (cell cell' : Cell) : Prop :=
  ∃ related : Cell → Cell → Prop, related cell cell' ∧
    ∀ a b, related a b → a.value.Alike (Link.Completes known known' related) b.value

section

variable {known known' : Knowledge} {cell cell' : Cell} {link link' : Link}

/-- A link that completes another one, down to the last cell that is held. -/
abbrev Link.CompletesAll (known known' : Knowledge) : Link → Link → Prop :=
  Link.Completes known known' (Cell.Completes known known')

theorem Link.Completes.mono {related related' : Cell → Cell → Prop}
    (h : Link.Completes known known' related link link')
    (hsub : ∀ {a b}, related a b → related' a b) :
    Link.Completes known known' related' link link' := by
  cases h with
  | direct below => exact .direct (hsub below)
  | held resident resident' below => exact .held resident resident' (hsub below)
  | lacking resident' => exact .lacking resident'

/-- The values differ in their links only, which complete each other. -/
theorem Cell.Completes.alike (h : cell.Completes known known' cell') :
    cell.value.Alike (Link.CompletesAll known known') cell'.value := by
  obtain ⟨related, hrelated, halike⟩ := h
  exact (halike _ _ hrelated).mono fun _ _ _ hlinks =>
    hlinks.mono fun hab => ⟨related, hab, halike⟩

theorem Cell.Completes.of_alike
    (h : cell.value.Alike (Link.CompletesAll known known') cell'.value) :
    cell.Completes known known' cell' := by
  have hsub : ∀ {a b : Cell}, a.Completes known known' b →
      a.Completes known known' b ∨ a = cell ∧ b = cell' := .inl
  refine ⟨fun a b => a.Completes known known' b ∨ a = cell ∧ b = cell', .inr ⟨rfl, rfl⟩, ?_⟩
  rintro a b (hab | ⟨rfl, rfl⟩)
  · exact hab.alike.mono fun _ _ _ hlinks => hlinks.mono hsub
  · exact h.mono fun _ _ _ hlinks => hlinks.mono hsub

/-- Cells without links complete each other if they hold the same. -/
theorem Cell.Completes.of_value_eq (h : cell.value = cell'.value) (hlinks : cell.value.links = []) :
    cell.Completes known known' cell' := by
  refine .of_alike (h ▸ .refl fun link hlink => ?_)
  rw [hlinks] at hlink
  cases hlink

/-- Links that were made with cells of one value complete each other, if no links are in it. -/
theorem Link.Completes.of_value_eq (h : cell.value = cell'.value) (hlinks : cell.value.links = [])
    (link link' : Link) (hlink : link.target? = some cell) (hlink' : link'.target? = some cell') :
    Link.CompletesAll known known' link link' := by
  cases link with
  | soft => cases hlink
  | direct label target =>
    cases link' with
    | soft => cases hlink'
    | direct label' target' =>
      cases hlink
      cases hlink'
      exact .direct (Cell.Completes.of_value_eq h hlinks)

/-- A cell completes itself when more has become known. -/
theorem Cell.Completes.of_le
    (h : ∀ (label : Label) (cell : Cell), known'.kept[label]? = some cell →
      known.kept[label]? = some cell) (cell : Cell) : cell.Completes known known' cell := by
  refine ⟨Eq, rfl, ?_⟩
  rintro a _ rfl
  refine .refl fun link _ => ?_
  cases link with
  | direct label target => exact .direct rfl
  | soft label digest =>
    cases hresident : known'.resident (.soft label digest) with
    | some target => exact .held (h label target hresident) hresident rfl
    | none => exact .lacking hresident

/-- What is held makes no difference to what is written. -/
theorem Cell.Completes.encode_eq (h : cell.Completes known known' cell') :
    cell'.encode = cell.encode := by
  induction cell using Cell.induct generalizing cell' with
  | step label value ih =>
    have hwritten : (Cell.mk label value).value.Alike
        (fun link link' => link'.written = link.written) cell'.value := by
      refine h.alike.mono fun link hlink link' hlinks => ?_
      cases hlinks with
      | direct below => rw [Link.written, Link.written, ih _ hlink _ rfl below]
      | held => rfl
      | lacking => rfl
    exact Cell.encode_eq_of_alike hwritten fun _ _ h => h

theorem Cell.Completes.digest_eq (h : cell.Completes known known' cell') :
    cell'.digest = cell.digest :=
  congrArg Digest.of h.encode_eq

theorem Link.Completes.written_eq (h : Link.CompletesAll known known' link link') :
    link'.written = link.written := by
  cases h with
  | direct below => rw [Link.written, Link.written, below.encode_eq]
  | held => rfl
  | lacking => rfl

theorem Link.Completes.digest_eq (h : Link.CompletesAll known known' link link') :
    link'.digest = link.digest := by
  cases h with
  | direct below => exact below.digest_eq
  | held => rfl
  | lacking => rfl

/-- What the second link holds, the first one holds as well. -/
theorem Link.Completes.shows :
    Shows known.resident known'.resident (Link.CompletesAll known known') := by
  intro link link' h cell' hcell'
  cases h with
  | direct below =>
    cases hcell'
    exact ⟨_, rfl, below.alike⟩
  | held resident resident' below =>
    cases resident'.symm.trans hcell'
    exact ⟨_, resident, below.alike⟩
  | lacking resident' => cases resident'.symm.trans hcell'

end

/-! ### Entries that differ in their links -/

namespace Entry

/-- Entries that differ in their links only, `R` relating the links at each place. -/
abbrev Alike (R : Link → Link → Prop) : List Entry → List Entry → Prop :=
  List.Forall₂ fun entry entry' => R entry.1 entry'.1 ∧ R entry.2 entry'.2

variable {R : Link → Link → Prop} {entries entries' : List Entry}

theorem alike_of_map (h : (Value.map entries).Alike R (.map entries')) :
    Alike R entries entries' := by
  obtain ⟨pairs, hentries, hentries', hlinks⟩ := h
  cases pairs with
  | map pairs =>
    cases hentries
    cases hentries'
    refine List.forall₂_map_left_iff.2 (List.forall₂_map_right_iff.2 (List.forall₂_same.2 ?_))
    exact fun pair hpair => ⟨hlinks pair.1 (List.mem_flatMap.2 ⟨pair, hpair, by simp⟩),
      hlinks pair.2 (List.mem_flatMap.2 ⟨pair, hpair, by simp⟩)⟩
  | _ => cases hentries

theorem Alike.map (h : Alike R entries entries') : (Value.map entries).Alike R (.map entries') := by
  induction h with
  | nil => exact ⟨.map [], rfl, rfl, nofun⟩
  | @cons entry entry' rest rest' hentry _ ih =>
    obtain ⟨pairs, hrest, hrest', hlinks⟩ := ih
    cases pairs with
    | map pairs =>
      cases hrest
      cases hrest'
      refine ⟨.map (((entry.1, entry'.1), (entry.2, entry'.2)) :: pairs), rfl, rfl, ?_⟩
      intro pair hpair
      rcases List.mem_cons.1 hpair with rfl | hpair
      · exact hentry.1
      · rcases List.mem_cons.1 hpair with rfl | hpair
        · exact hentry.2
        · exact hlinks pair hpair
    | _ => cases hrest

/-- The same key is found in the same place. -/
theorem Alike.find? (h : Alike R entries entries')
    (hdigest : ∀ link link', R link link' → link'.digest = link.digest) (digest : Digest) :
    Option.Rel (fun entry entry' => R entry.1 entry'.1 ∧ R entry.2 entry'.2)
      (find? digest entries) (find? digest entries') := by
  induction h with
  | nil => exact .none
  | @cons entry entry' rest rest' hentry _ ih =>
    rw [Entry.find?, Entry.find?, List.find?_cons, List.find?_cons, hdigest _ _ hentry.1]
    split
    · exact .some hentry
    · exact ih

theorem Alike.find?_eq_none_iff (h : Alike R entries entries')
    (hdigest : ∀ link link', R link link' → link'.digest = link.digest) (digest : Digest) :
    Entry.find? digest entries = none ↔ Entry.find? digest entries' = none := by
  have hfound := h.find? hdigest digest
  revert hfound
  generalize Entry.find? digest entries = found
  generalize Entry.find? digest entries' = found'
  rintro (_ | _) <;> simp

/-- An entry goes to the same place. -/
theorem Alike.insert (h : Alike R entries entries')
    (hdigest : ∀ link link', R link link' → link'.digest = link.digest) {entry entry' : Entry}
    (hkey : R entry.1 entry'.1) (hvalue : R entry.2 entry'.2) :
    Alike R (insert entry.1.digest entry entries) (insert entry'.1.digest entry' entries') := by
  rw [hdigest _ _ hkey]
  induction h with
  | nil => exact .cons ⟨hkey, hvalue⟩ .nil
  | @cons first first' rest rest' hfirst hrest ih =>
    simp only [Entry.insert, hdigest _ _ hfirst.1]
    split
    · exact .cons ⟨hkey, hvalue⟩ (.cons hfirst hrest)
    · split
      · exact .cons ⟨hkey, hvalue⟩ hrest
      · exact .cons hfirst ih

/-- An entry goes from the same place. -/
theorem Alike.erase (h : Alike R entries entries')
    (hdigest : ∀ link link', R link link' → link'.digest = link.digest) (digest : Digest) :
    Alike R (erase digest entries) (erase digest entries') := by
  induction h with
  | nil => exact .nil
  | @cons first first' rest rest' hfirst hrest ih =>
    simp only [Entry.erase, List.eraseP_cons, cond_eq_ite, hdigest _ _ hfirst.1] at ih ⊢
    split
    · exact hrest
    · exact .cons hfirst ih

end Entry

/-! ### Echoes -/

namespace Attempt

variable {α β γ δ : Type}

/-- Two outcomes agree: they are related results, or one fault. -/
inductive Agree (rel : α → β → Prop) : Except Fault α → Except Fault β → Prop
  | ok {a : α} {b : β} (related : rel a b) : Agree rel (.ok a) (.ok b)
  | error (fault : Fault) : Agree rel (.error fault) (.error fault)

/-- The second outcome is lack of a cell, or agrees with the first one. -/
def Echo (rel : α → β → Prop) (outcome : Except Fault α) (outcome' : Except Fault β) : Prop :=
  (∃ digest, outcome' = .error (.missingData digest)) ∨ Agree rel outcome outcome'

theorem Agree.mono {rel rel' : α → β → Prop} {outcome : Except Fault α} {outcome' : Except Fault β}
    (h : Agree rel outcome outcome') (hrel : ∀ a b, rel a b → rel' a b) :
    Agree rel' outcome outcome' := by
  cases h with
  | ok hab => exact .ok (hrel _ _ hab)
  | error fault => exact .error fault

/-- What succeeds without a cell succeeds with it. -/
theorem Echo.of_isOk {rel : α → β → Prop} {outcome : Except Fault α} {outcome' : Except Fault β}
    (h : Echo rel outcome outcome') (hok : outcome'.isOk) :
    ∃ a b, outcome = .ok a ∧ outcome' = .ok b ∧ rel a b := by
  rcases h with ⟨digest, rfl⟩ | hagree
  · cases hok
  · cases hagree with
    | ok hab => exact ⟨_, _, rfl, rfl, hab⟩
    | error fault => cases hok

/-- What succeeds only the first time lacks a cell the second time. -/
theorem Echo.lacking {rel : α → β → Prop} {outcome : Except Fault α} {outcome' : Except Fault β}
    (h : Echo rel outcome outcome') (hok : outcome.isOk) (hfails : outcome'.isOk = false) :
    ∃ digest, outcome' = .error (.missingData digest) := by
  rcases h with hlacking | hagree
  · exact hlacking
  · cases hagree with
    | ok hab => cases hfails
    | error fault => cases hok

/--
Where links hold what they do under `known`, the first computation comes to an outcome which the
second one echoes where links hold what they do under `known'`. Unless a cell is lacking, links hold
the same as before afterwards.
-/
def Echoes (known known' : Knowledge) (full : Attempt α) (less : Attempt β)
    (rel : α → β → Prop) : Prop :=
  ∀ k k' : Knowledge, k.resident = known.resident → k'.resident = known'.resident →
    (∃ digest, (less.run.run k').1 = .error (.missingData digest)) ∨
      Agree rel (full.run.run k).1 (less.run.run k').1 ∧
        (full.run.run k).2.resident = known.resident ∧
        (less.run.run k').2.resident = known'.resident

namespace Echoes

variable {known known' : Knowledge} {rel : α → β → Prop}

theorem outcome {full : Attempt α} {less : Attempt β} (h : Echoes known known' full less rel) :
    Echo rel (full.run.run known).1 (less.run.run known').1 :=
  (h known known' rfl rfl).imp id And.left

theorem mono {full : Attempt α} {less : Attempt β} {rel' : α → β → Prop}
    (h : Echoes known known' full less rel) (hrel : ∀ a b, rel a b → rel' a b) :
    Echoes known known' full less rel' := by
  intro k k' hk hk'
  exact (h k k' hk hk').imp id fun ⟨hagree, hresident⟩ => ⟨hagree.mono hrel, hresident⟩

theorem pure {a : α} {b : β} (h : rel a b) :
    Echoes known known' (pure a : Attempt α) (pure b : Attempt β) rel :=
  fun _ _ hk hk' => .inr ⟨.ok h, hk, hk'⟩

theorem throw (fault : Fault) :
    Echoes known known' (throw fault : Attempt α) (throw fault : Attempt β) rel :=
  fun _ _ hk hk' => .inr ⟨.error fault, hk, hk'⟩

/-- The rest of a computation goes on from results that are related. -/
theorem bind {full : Attempt α} {less : Attempt β} {next : α → Attempt γ} {next' : β → Attempt δ}
    {final : γ → δ → Prop} (h : Echoes known known' full less rel)
    (hnext : ∀ a b, rel a b → Echoes known known' (next a) (next' b) final) :
    Echoes known known' (full >>= next) (less >>= next') final := by
  intro k k' hk hk'
  rw [run_run_bind, run_run_bind]
  have hfirst := h k k' hk hk'
  rcases hfull : full.run.run k with ⟨o, k₁⟩
  rcases hless : less.run.run k' with ⟨o', k₁'⟩
  rw [hfull, hless] at hfirst
  rcases hfirst with ⟨digest, rfl⟩ | ⟨hagree, hk₁, hk₁'⟩
  · exact .inl ⟨digest, rfl⟩
  · cases hagree with
    | ok hab => exact hnext _ _ hab k₁ k₁' hk₁ hk₁'
    | error fault => exact .inr ⟨.error fault, hk₁, hk₁'⟩

/-- A condition that is the same on both sides, under which an argument is refused. -/
theorem guard {condition : Prop} [Decidable condition] {cause : ArgumentFault}
    {next : Unit → Attempt α} {next' : Unit → Attempt β}
    (hnext : ¬condition → Echoes known known' (next ()) (next' ()) rel) :
    Echoes known known' (if condition then Attempt.refuse cause >>= next else next ())
      (if condition then Attempt.refuse cause >>= next' else next' ()) rel := by
  split
  · exact fun _ _ hk hk' => .inr ⟨.error _, hk, hk'⟩
  · next h => exact hnext h

/-- A first part that matters only if it fails. -/
theorem discard_bind {full : Attempt α} {less : Attempt β} {next : PUnit → Attempt γ}
    {next' : PUnit → Attempt δ} {final : γ → δ → Prop} (h : Echoes known known' full less rel)
    (hnext : Echoes known known' (next ⟨⟩) (next' ⟨⟩) final) :
    Echoes known known' (discard full >>= next) (discard less >>= next') final := by
  simp only [Functor.discard, LawfulFunctor.map_const, Function.comp_apply, map_eq_pure_bind,
    bind_assoc, pure_bind, Function.const_apply]
  exact h.bind fun _ _ _ => hnext

/-- Outcomes that do not depend on anything. -/
theorem ofExcept {full : Except Fault α} {less : Except Fault β} (h : Agree rel full less) :
    Echoes known known' (liftM full : Attempt α) (liftM less : Attempt β) rel := by
  intro k k' hk hk'
  cases h with
  | ok hab => exact .inr ⟨.ok hab, hk, hk'⟩
  | error fault => exact .inr ⟨.error fault, hk, hk'⟩

/-- Computations that cannot fail, and that leave alone what links hold. -/
theorem ofCalc {full : Calc α} {less : Calc β}
    (hrel : ∀ k k' : Knowledge, rel (full.run k).1 (less.run k').1)
    (hfull : ∀ k : Knowledge, (full.run k).2.resident = k.resident)
    (hless : ∀ k : Knowledge, (less.run k).2.resident = k.resident) :
    Echoes known known' (liftM full : Attempt α) (liftM less : Attempt β) rel :=
  fun k k' hk hk' => .inr ⟨.ok (hrel k k'), (hfull k).trans hk, (hless k').trans hk'⟩

/-- Computations that only note digests and encodings. -/
theorem notes {full : Calc α} {less : Calc β} (hfull : full.OnlyNotes) (hless : less.OnlyNotes)
    (hrel : ∀ k k' : Knowledge, rel (full.run k).1 (less.run k').1) :
    Echoes known known' (liftM full : Attempt α) (liftM less : Attempt β) rel :=
  ofCalc hrel (fun k => (hfull k).resident_eq) fun k => (hless k).resident_eq

theorem hash {cell cell' : Cell} (h : cell'.digest = cell.digest) :
    Echoes known known' (liftM cell.hash : Attempt Digest) (liftM cell'.hash : Attempt Digest)
      fun digest digest' => digest = cell.digest ∧ digest' = cell.digest :=
  notes cell.onlyNotes_hash cell'.onlyNotes_hash fun k k' =>
    ⟨cell.fst_hash k, (cell'.fst_hash k').trans h⟩

/-- Noting the digests of keys changes no outcome. -/
theorem noteKeys (entries entries' : List Entry) :
    Echoes known known'
      (entries.forM fun entry => (liftM entry.1.noteDigest : Attempt PUnit))
      (entries'.forM fun entry => (liftM entry.1.noteDigest : Attempt PUnit))
      fun _ _ => True := by
  have hnotes : ∀ (entries : List Entry) (k : Knowledge),
      ∃ k', (entries.forM fun entry => (liftM entry.1.noteDigest : Attempt PUnit)).run.run k =
        (.ok ⟨⟩, k') ∧ k'.resident = k.resident := by
    intro entries
    induction entries with
    | nil => exact fun k => ⟨k, rfl, rfl⟩
    | cons entry rest ih =>
      intro k
      obtain ⟨k', hrun, hk'⟩ := ih (entry.1.noteDigest.run k).2
      exact ⟨k', hrun, hk'.trans (entry.1.onlyNotes_noteDigest k).resident_eq⟩
  intro k k' hk hk'
  obtain ⟨k₁, hrun, hk₁⟩ := hnotes entries k
  obtain ⟨k₁', hrun', hk₁'⟩ := hnotes entries' k'
  rw [hrun, hrun']
  exact .inr ⟨.ok trivial, hk₁.trans hk, hk₁'.trans hk'⟩

theorem make {value value' : Value Link} :
    Echoes known known' (liftM (Cell.make value) : Attempt Cell)
      (liftM (Cell.make value') : Attempt Cell)
      fun cell cell' => cell.value = value ∧ cell'.value = value' :=
  ofCalc (fun _ _ => ⟨rfl, rfl⟩) (fun _ => rfl) fun _ => rfl

theorem link (target target' : Cell) :
    Echoes known known' (liftM target.link : Attempt Link) (liftM target'.link : Attempt Link)
      fun link link' => link.target? = some target ∧ link'.target? = some target' :=
  ofCalc (fun _ _ => ⟨rfl, rfl⟩) (fun _ => rfl) fun _ => rfl

theorem makeEntry (key value key' value' : Cell) :
    Echoes known known' (liftM (Cell.makeEntry key value) : Attempt Entry)
      (liftM (Cell.makeEntry key' value') : Attempt Entry) fun entry entry' =>
        (entry.1.target? = some key ∧ entry.2.target? = some value) ∧
          entry'.1.target? = some key' ∧ entry'.2.target? = some value' :=
  ofCalc (fun _ _ => ⟨⟨rfl, rfl⟩, rfl, rfl⟩)
    (fun k => (key.onlyNotes_noteDigest k).resident_eq)
    fun k => (key'.onlyNotes_noteDigest k).resident_eq

/-- Going through two lists in step and collecting results. -/
theorem mapM {list : List γ} {list' : List δ} {step : γ → Attempt α} {step' : δ → Attempt β}
    (h : List.Forall₂ (fun c d => Echoes known known' (step c) (step' d) rel) list list') :
    Echoes known known' (list.mapM step) (list'.mapM step') (List.Forall₂ rel) := by
  induction h with
  | nil => exact pure .nil
  | cons hfirst _ ih =>
    rw [List.mapM_cons, List.mapM_cons]
    exact hfirst.bind fun _ _ hab => ih.bind fun _ _ hrest => pure (.cons hab hrest)

end Echoes

end Attempt

/-! ### Questions to links and maps -/

open Attempt

variable {known known' : Knowledge} {cell cell' : Cell} {link link' : Link}

/-- What a link holds, or lack of it. -/
theorem Link.Completes.echoes_load (h : Link.CompletesAll known known' link link') :
    Echoes known known' link.load link'.load fun target target' =>
      known.resident link = some target ∧ target.Completes known known' target' := by
  cases h with
  | direct below => exact Echoes.pure ⟨rfl, below⟩
  | @held label label' digest target target' resident resident' below =>
    intro k k' hk hk'
    have hload : ∀ {k : Knowledge} {l : Link} {t : Cell}, k.resident l = some t →
        l.load.run.run k = (.ok t, k) := by
      intro k l t hresident
      unfold Link.load
      rw [run_run_bind, run_run_get]
      simp only [hresident, run_run_pure]
    rw [hload ((congrFun hk _).trans resident), hload ((congrFun hk' _).trans resident')]
    exact .inr ⟨.ok ⟨resident, below⟩, hk, hk'⟩
  | @lacking label label' digest resident' =>
    intro k k' hk hk'
    refine .inl ⟨digest, ?_⟩
    unfold Link.load
    rw [run_run_bind, run_run_get]
    simp only [hk', resident', run_run_throw]
    rfl

/-- What an optional link holds, or lack of it. -/
theorem Link.Completes.echoes_loadOption {link link' : Option Link}
    (h : Option.Rel (Link.CompletesAll known known') link link') :
    Echoes known known' (Link.loadOption link) (Link.loadOption link') fun target target' =>
      link.map known.resident = target.map some ∧
        Option.Rel (Cell.Completes known known') target target' := by
  cases h with
  | none => exact Echoes.pure ⟨rfl, .none⟩
  | some h =>
    refine h.echoes_load.bind ?_
    rintro target target' ⟨hresident, hcompletes⟩
    exact Echoes.pure ⟨congrArg some hresident, .some hcompletes⟩

/-- This is what is found in a map under a key of this digest. -/
def Cell.Finds (resident : Link → Option Cell) (map : Cell) (digest : Digest)
    (found : Option Cell) : Prop :=
  ∃ entries, map.value = .map entries ∧
    (Entry.find? digest entries).map (fun entry => resident entry.2) = found.map some

/-- This is a map with a key bound to a value. -/
def Cell.Inserts (map key value result : Cell) : Prop :=
  ∃ entries entry, map.value = .map entries ∧ entry.1.target? = some key ∧
    entry.2.target? = some value ∧ result.value = .map (Entry.insert entry.1.digest entry entries)

/-- This is a map without a key, or the map itself if the key is not bound. -/
def Cell.Erases (map key result : Cell) : Prop :=
  ∃ entries, map.value = .map entries ∧
    (Entry.find? key.digest entries = none ∧ result = map ∨
      Entry.find? key.digest entries ≠ none ∧
        result.value = .map (Entry.erase key.digest entries))

/-- The map itself is without a key that is not bound. -/
theorem Cell.Erases.value_eq {map key result : Cell} {entries : List Entry}
    (h : map.Erases key result) (hvalue : map.value = .map entries) :
    result.value = .map (Entry.erase key.digest entries) := by
  obtain ⟨entries', hvalue', ⟨hnone, rfl⟩ | ⟨-, hresult⟩⟩ := h
  · cases hvalue.symm.trans hvalue'
    rw [hvalue, Entry.erase, List.eraseP_of_forall_not (List.find?_eq_none.1 hnone)]
  · cases hvalue.symm.trans hvalue'
    exact hresult

namespace Cell.Completes

variable (h : cell.Completes known known' cell')

include h

/-- Both cells are maps, or neither is. -/
theorem agree_entries : Agree (fun entries entries' => cell.value = .map entries ∧
    cell'.value = .map entries' ∧ Entry.Alike (Link.CompletesAll known known') entries entries')
    cell.entries? cell'.entries? := by
  obtain ⟨pairs, hvalue, hvalue', hlinks⟩ := h.alike
  unfold Cell.entries?
  rw [hvalue, hvalue']
  cases pairs with
  | map pairs => exact .ok ⟨rfl, rfl, Entry.alike_of_map ⟨.map pairs, rfl, rfl, hlinks⟩⟩
  | _ => exact .error _

theorem agree_size : Agree Eq cell.size cell'.size := by
  have hentries := h.agree_entries
  unfold Cell.size
  revert hentries
  generalize cell.entries? = entries
  generalize cell'.entries? = entries'
  rintro (⟨-, -, hentries⟩ | fault)
  · exact .ok hentries.length_eq
  · exact .error fault

theorem echoes_findDigest (digest : Digest) :
    Echoes known known' (cell.findDigest? digest) (cell'.findDigest? digest) fun found found' =>
      cell.Finds known.resident digest found ∧
        Option.Rel (Cell.Completes known known') found found' := by
  unfold Cell.findDigest?
  refine (Echoes.ofExcept h.agree_entries).bind ?_
  rintro entries entries' ⟨hvalue, -, hentries⟩
  refine (Echoes.noteKeys entries entries').bind fun _ _ _ => ?_
  have hfinds : ∀ found, (Entry.find? digest entries).map (fun entry => known.resident entry.2) =
      found.map some → cell.Finds known.resident digest found :=
    fun found hfound => ⟨entries, hvalue, hfound⟩
  have hfound := hentries.find? (fun _ _ => Link.Completes.digest_eq) digest
  revert hfinds hfound
  generalize Entry.find? digest entries = entry
  generalize Entry.find? digest entries' = entry'
  rintro hfinds (hentry | _)
  · refine hentry.2.echoes_load.bind ?_
    rintro target target' ⟨hresident, hcompletes⟩
    exact Echoes.pure ⟨hfinds _ (congrArg some hresident), .some hcompletes⟩
  · exact Echoes.pure ⟨hfinds _ rfl, .none⟩

theorem echoes_find {key key' : Cell} (hkey : key'.digest = key.digest) :
    Echoes known known' (cell.find? key) (cell'.find? key')
      (Option.Rel (Cell.Completes known known')) := by
  unfold Cell.find?
  refine (Echoes.ofExcept h.agree_entries).discard_bind ((Echoes.hash hkey).bind ?_)
  rintro _ _ ⟨rfl, rfl⟩
  exact (h.echoes_findDigest key.digest).mono fun _ _ => And.right

theorem echoes_toPairs :
    Echoes known known' cell.toPairs cell'.toPairs
      (List.Forall₂ fun pair pair' => pair.1.Completes known known' pair'.1 ∧
        pair.2.Completes known known' pair'.2) := by
  unfold Cell.toPairs
  refine (Echoes.ofExcept h.agree_entries).bind ?_
  rintro entries entries' ⟨-, -, hentries⟩
  refine Echoes.mapM (hentries.imp fun entry entry' hentry => ?_)
  exact hentry.1.echoes_load.bind fun _ _ hkey => hentry.2.echoes_load.bind fun _ _ hvalue =>
    Echoes.pure ⟨hkey.2, hvalue.2⟩

/-- Both maps can be given a binding, or neither. -/
theorem echoes_insert (key value key' value' : Cell) :
    Echoes known known' (cell.insert key value) (cell'.insert key' value') fun result result' =>
      cell.Inserts key value result ∧ cell'.Inserts key' value' result' := by
  unfold Cell.insert
  refine (Echoes.ofExcept h.agree_entries).bind ?_
  rintro entries entries' ⟨hvalue, hvalue', -⟩
  refine (Echoes.makeEntry key value key' value').bind ?_
  rintro entry entry' ⟨⟨hkey, hbound⟩, hkey', hbound'⟩
  refine (Echoes.noteKeys entries entries').bind fun _ _ _ => Echoes.make.mono ?_
  rintro result result' ⟨hresult, hresult'⟩
  exact ⟨⟨entries, entry, hvalue, hkey, hbound, hresult⟩,
    entries', entry', hvalue', hkey', hbound', hresult'⟩

/-- A key can be removed from both maps, or from neither. -/
theorem echoes_erase {key key' : Cell} (hkey : key'.digest = key.digest) :
    Echoes known known' (cell.erase key) (cell'.erase key') fun result result' =>
      cell.Erases key result ∧ cell'.Erases key' result' := by
  unfold Cell.erase
  refine (Echoes.ofExcept h.agree_entries).bind ?_
  rintro entries entries' ⟨hvalue, hvalue', hentries⟩
  refine (Echoes.hash hkey).bind ?_
  rintro _ _ ⟨rfl, rfl⟩
  refine (Echoes.noteKeys entries entries').bind fun _ _ _ => ?_
  have hnone := hentries.find?_eq_none_iff (fun _ _ => Link.Completes.digest_eq) key.digest
  cases hfind : Entry.find? key.digest entries with
  | none =>
    have hfind' := hnone.1 hfind
    rw [hfind']
    exact Echoes.pure ⟨⟨entries, hvalue, .inl ⟨hfind, rfl⟩⟩,
      entries', hvalue', .inl ⟨hkey ▸ hfind', rfl⟩⟩
  | some entry =>
    obtain ⟨entry', hfind'⟩ := Option.ne_none_iff_exists'.1 (mt hnone.2 (by simp [hfind]))
    rw [hfind']
    refine Echoes.make.mono ?_
    rintro result result' ⟨hresult, hresult'⟩
    exact ⟨⟨entries, hvalue, .inr ⟨by simp [hfind], hresult⟩⟩,
      entries', hvalue', .inr ⟨by simp [hkey, hfind'], hkey ▸ hresult'⟩⟩

end Cell.Completes

/-! ### Changed maps -/

section

variable {R : Link → Link → Prop} {key key' value value' result result' : Cell}
  (h : cell.Completes known known' cell')
  (hR : ∀ {link link'}, Link.CompletesAll known known' link link' → R link link')
  (hdigest : ∀ link link', R link link' → link'.digest = link.digest)

include h hR hdigest

/-- A binding that is alike makes maps alike. -/
theorem Cell.Inserts.alike (hresult : cell.Inserts key value result)
    (hresult' : cell'.Inserts key' value' result')
    (hkey : ∀ link link' : Link, link.target? = some key → link'.target? = some key' → R link link')
    (hvalue : ∀ link link' : Link, link.target? = some value → link'.target? = some value' →
      R link link') : result.value.Alike R result'.value := by
  obtain ⟨entries, entry, hmap, hkeyOf, hvalueOf, hentries⟩ := hresult
  obtain ⟨entries', entry', hmap', hkeyOf', hvalueOf', hentries'⟩ := hresult'
  have halike := (h.alike.mono fun _ _ _ => hR)
  rw [hmap, hmap'] at halike
  rw [hentries, hentries']
  exact ((Entry.alike_of_map halike).insert hdigest (hkey _ _ hkeyOf hkeyOf')
    (hvalue _ _ hvalueOf hvalueOf')).map

/-- Maps are alike without a key as well. -/
theorem Cell.Erases.alike (hresult : cell.Erases key result)
    (hresult' : cell'.Erases key' result') (hkey : key'.digest = key.digest) :
    result.value.Alike R result'.value := by
  have halike := (h.alike.mono fun _ _ _ => hR)
  obtain ⟨entries, hmap, hcase⟩ := hresult
  obtain ⟨entries', hmap', hcase'⟩ := hresult'
  have hentries := halike
  rw [hmap, hmap'] at hentries
  replace hentries := Entry.alike_of_map hentries
  have hnone := hentries.find?_eq_none_iff hdigest key.digest
  rw [hkey] at hcase'
  rcases hcase with ⟨hfind, rfl⟩ | ⟨hfind, hvalue⟩ <;>
    rcases hcase' with ⟨hfind', rfl⟩ | ⟨hfind', hvalue'⟩
  · exact halike
  · exact absurd (hnone.1 hfind) hfind'
  · exact absurd (hnone.2 hfind') hfind
  · rw [hvalue, hvalue']
    exact (hentries.erase hdigest key.digest).map

end

end CellGraph
