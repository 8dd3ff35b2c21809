import CellGraph.Proofs.Knowledge.Law

/-!
# Crafts

A computation that makes cells is put together from a few steps: it makes a cell or a link, reads
bytes, loads the target of a link, notes a digest. A law that each of these steps keeps is kept by
every such computation, and what each step says of the cells in use is said of every cell that comes
out.

* `Cell.Valid`: cells that pass the checks;
* `Craft`: a law with what it says of the cells in use, and the steps that keep it;
* `Craft.Resolves`: laws that resolving a link keeps as well;
* `Craft.valid`: what is known stays coherent, and cells are valid;
* `Craft.steady`: besides, what soft links hold stays as it is.
-/

namespace CellGraph

/-- An outcome that is known already. -/
theorem Law.Keeps.ofExcept {α : Type} {law : Law Knowledge} {held : Set Link}
    {outcome : Except Fault α} :
    law.Keeps held (fun _ => True) (liftM outcome : Attempt α) fun a _ _ => outcome = .ok a := by
  cases outcome with
  | error fault => exact .throw fault
  | ok a => exact .pure fun _ _ _ => rfl

/-- A cell that passes the checks, as far as it holds its children itself. -/
def Cell.Valid (cell : Cell) : Prop := cell.value.validate Link.target? = .ok ()

/-- A law of the computations on valid cells, kept by each step that they are put together from. -/
structure Craft where
  law : Law Knowledge
  /-- A cell is in use. -/
  Owns : Set Link → Cell → Prop
  within : ∀ {held cell}, Owns held cell → cell.Within Cell.Valid held
  mono : ∀ {held held' cell}, Owns held cell → held ⊆ held' → Owns held' cell
  notes : ∀ {α : Type} {step : Calc α} {held}, Calc.OnlyNotes step →
    law.Keeps held (fun _ => True) (liftM step : Attempt α)
      fun a _ _ => ∃ known, a = (step.run known).1
  make : ∀ {held} (value : Value Link), (∀ label, Cell.Valid (.mk label value)) →
    (∀ link ∈ value.links, link ∈ held) →
    law.Keeps held (fun _ => True) (liftM (Cell.make value) : Attempt Cell)
      fun cell held' _ => Owns held' cell
  link : ∀ {held target}, Owns held target →
    law.Keeps held (fun _ => True) (liftM target.link : Attempt Link)
      fun link held' _ => link ∈ held'
  soft : ∀ {held} (digest : Digest),
    law.Keeps held (fun _ => True) (liftM digest.link : Attempt Link)
      fun link held' _ => link ∈ held'
  load : ∀ {held link}, link ∈ held →
    law.Keeps held (fun _ => True) link.load fun cell held' _ => Owns held' cell
  decode : ∀ {held} (bytes : Bytes),
    law.Keeps held (fun _ => True) (Cell.decode bytes) fun cell held' _ => Owns held' cell

namespace Craft

variable {craft : Craft} {held held' : Set Link} {cell : Cell}

theorem Owns.within (h : craft.Owns held cell) : cell.Within Cell.Valid held :=
  Craft.within craft h

theorem Owns.mono (h : craft.Owns held cell) (hsub : held ⊆ held') : craft.Owns held' cell :=
  Craft.mono craft h hsub

/-- The craft of valid cells whose links are in use. -/
def valid : Craft where
  law := Knowledge.law Cell.Valid
  Owns held cell := cell.Within Cell.Valid held
  within h := h
  mono := Cell.Within.mono
  notes h := Knowledge.keeps_notes h
  make := Knowledge.keeps_make
  link h := (Knowledge.keeps_link h).mono_right fun _ _ _ h => h.1
  soft := Knowledge.keeps_soft
  load := Knowledge.keeps_load
  decode _ := (Knowledge.keeps_decode fun _ hsound _ => hsound.valid).mono_right fun _ _ _ h => h.1

/-- Resolving a link keeps the law too. -/
def Resolves (craft : Craft) : Prop := ∀ {held : Set Link} {link : Link} {found : Option Cell},
  link ∈ held → (∀ cell ∈ found, craft.Owns held cell) →
    craft.law.Keeps held (fun _ => True) (link.resolve fun _ => return found)
      fun cell held' _ => craft.Owns held' cell

/--
The craft of valid cells whose links are in use, where no soft link comes to hold a cell. Resolving
a link is the one thing that does not keep its law.
-/
def steady : Craft where
  law := (Knowledge.law Cell.Valid).also (fun known known' => known'.kept = known.kept)
    (fun _ => rfl) fun h h' => h'.trans h
  Owns held cell := cell.Within Cell.Valid held
  within h := h
  mono := Cell.Within.mono
  notes h := (Knowledge.keeps_notes h).also fun known => (h known).kept
  make value hvalid hlinks := (valid.make value hvalid hlinks).also fun _ => rfl
  link htarget := (valid.link htarget).also fun _ => rfl
  soft digest := (valid.soft digest).also fun _ => rfl
  load hlink := (valid.load hlink).also fun known => by
    rw [Link.load, run_run_bind, run_run_get]
    dsimp only
    split <;> rfl
  decode bytes := (valid.decode bytes).also fun known => by
    obtain ⟨_, -, hnotes⟩ := Cell.notes_decode bytes known
    exact hnotes.kept

theorem valid_resolves : valid.Resolves := fun hlink hfound =>
  Knowledge.keeps_resolve hlink fun _ hsub =>
    .pure fun _ _ _ cell hcell => (hfound cell hcell).mono hsub

end Craft

end CellGraph
