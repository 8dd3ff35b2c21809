import CellGraph.Proofs.Cell.UniqueParsing
import CellGraph.Proofs.Walk.Agenda

/-!
# Cells on one plan

A cell that somebody holds may be a plan for another one, which is written alike: what is not held
in the one or in the other has an entry in a store, or neither holds it. Cells that have been made in
the same way are plans for each other, and so is what an encoding is read as for every cell with that
encoding, as long as the store has all that it names.

* `Cell.unlabelled`: a cell without its labels;
* `Link.Parallel`, `Cell.Parallel`: links in the same place, and cells on one plan;
* `Cell.Parallel.of_unlabelled`, `Cell.Parallel.of_encoding`: how they come about;
* `Cell.Parallel.encode_eq`, `Link.Parallel.named_eq`: what they have in common.
-/

namespace CellGraph

/-! ### Cells without labels -/

/-- A cell without its labels, and those of all that it holds. -/
def Cell.unlabelled : Cell → Cell :=
  Cell.fold (fun _ value => .mk 0 value) (fun _ _ target => .direct 0 target)
    fun _ digest => .soft 0 digest

/-- A link without its labels. -/
def Link.unlabelled : Link → Link
  | .direct _ target => .direct 0 target.unlabelled
  | .soft _ digest => .soft 0 digest

theorem Cell.unlabelled_mk (label : Label) (value : Value Link) :
    Cell.unlabelled (.mk label value) = .mk 0 (value.mapLinks Link.unlabelled) := by
  rw [Cell.unlabelled, Cell.fold_mk]
  refine congrArg (Cell.mk 0) (Value.mapLinks_congr fun link _ => ?_)
  cases link with
  | direct label target => exact Link.fold_direct ..
  | soft label digest => exact Link.fold_soft ..

/-! ### Plans -/

/--
A link and the one in the same place of a plan, where some digests have an entry: they name a digest
that has one, or both hold cells on one plan, or neither holds a cell.
-/
inductive Link.Parallel (has : Digest → Prop) (related : Cell → Cell → Prop) : Link → Link → Prop
  | entry {link plan : Link} (inline : link.inline? = none)
    (written : link.written = plan.written) (entry : has link.digest) :
    Parallel has related link plan
  | direct {label label' : Label} {target target' : Cell} (below : related target target') :
    Parallel has related (.direct label target) (.direct label' target')
  | soft (label label' : Label) (digest : Digest) :
    Parallel has related (.soft label digest) (.soft label' digest)

/-- A cell, and a plan for it. -/
def Cell.Parallel (has : Digest → Prop) (cell plan : Cell) : Prop :=
  ∃ related : Cell → Cell → Prop, related cell plan ∧
    ∀ a b, related a b → a.value.Alike (Link.Parallel has related) b.value

variable {has has' : Digest → Prop} {cell plan : Cell} {link : Link}

theorem Link.Parallel.mono {related related' : Cell → Cell → Prop} {plan : Link}
    (h : link.Parallel has related plan) (hhas : ∀ digest, has digest → has' digest)
    (hrelated : ∀ a b, related a b → related' a b) : link.Parallel has' related' plan := by
  cases h with
  | entry inline written entry => exact .entry inline written (hhas _ entry)
  | direct below => exact .direct (hrelated _ _ below)
  | soft label label' digest => exact .soft label label' digest

namespace Cell.Parallel

/-- More digests may have an entry. -/
theorem mono (h : cell.Parallel has plan) (hhas : ∀ digest, has digest → has' digest) :
    cell.Parallel has' plan := by
  obtain ⟨related, hrelated, halike⟩ := h
  exact ⟨related, hrelated, fun a b hab =>
    (halike a b hab).mono fun _ _ _ hlinks => hlinks.mono hhas fun _ _ h => h⟩

/-- A cell and its plan differ in their links only, which are on one plan. -/
theorem alike (h : cell.Parallel has plan) :
    cell.value.Alike (Link.Parallel has (Cell.Parallel has)) plan.value := by
  obtain ⟨related, hrelated, halike⟩ := h
  exact (halike _ _ hrelated).mono fun _ _ _ hlinks =>
    hlinks.mono (fun _ h => h) fun _ _ hab => ⟨related, hab, halike⟩

/-- The links of a cell are in the same places as those of its plan. -/
theorem links (h : cell.Parallel has plan) :
    List.Forall₂ (Link.Parallel has (Cell.Parallel has)) cell.links plan.links := by
  obtain ⟨pairs, hcell, hplan, hpairs⟩ := h.alike
  rw [Cell.links, Cell.links, hcell, hplan, Value.links_mapLinks, Value.links_mapLinks,
    List.forall₂_map_left_iff, List.forall₂_map_right_iff]
  exact List.forall₂_same.2 hpairs

/-- Cells that have been made in the same way are on one plan, whatever has an entry. -/
theorem of_unlabelled (h : cell.unlabelled = plan.unlabelled) : cell.Parallel has plan := by
  refine ⟨fun a b => a.unlabelled = b.unlabelled, h, ?_⟩
  rintro ⟨label, value⟩ ⟨label', value'⟩ hab
  rw [unlabelled_mk, unlabelled_mk] at hab
  have halike : value.Alike (fun link link' => link.unlabelled = link'.unlabelled) value' :=
    .of_mapLinks_eq (Cell.mk.inj hab).2
  refine halike.mono fun link _ link' heq => ?_
  cases link with
  | direct label target =>
    cases link' with
    | direct label' target' => exact .direct (Link.direct.inj heq).2
    | soft => cases heq
  | soft label digest =>
    cases link' with
    | direct => cases heq
    | soft label' digest' =>
      obtain rfl : digest = digest' := (Link.soft.inj heq).2
      exact .soft label label' digest

/-- An encoding is a plan for its cell, if all that it names has an entry. -/
theorem of_encoding (hcell : cell.Sound) (hnamed : ∀ digest ∈ cell.named, has digest) :
    cell.Parallel has cell.encode.cell := by
  obtain ⟨plan, hreads, hreread⟩ := Cell.reads_scan 0 hcell (Nat.le_succ cell.encode.length) 0
  have hplan : cell.encode.cell = plan := by
    have hrun := hreads []
    rw [List.append_nil] at hrun
    rw [Bytes.cell, hrun]
  rw [hplan]
  refine ⟨fun a b => a.Reread Link.inline? b ∧ ∀ digest ∈ a.named, has digest,
    ⟨hreread, hnamed⟩, ?_⟩
  rintro a b ⟨hab, ha⟩
  refine hab.mono_links fun link hlink link' _ hlinks => ?_
  have hlinked : ∀ digest ∈ link.named, has digest :=
    fun digest hdigest => ha digest (Cell.mem_named.2 ⟨link, hlink, hdigest⟩)
  cases hinline : link.inline? with
  | none =>
    rw [Link.named_of_not_inline hinline] at hlinked
    exact .entry hinline hlinks.written_eq.symm (hlinked _ (List.mem_singleton_self _))
  | some target =>
    rw [Link.named_of_inline hinline] at hlinked
    cases hlinks with
    | soft hnone => rw [hinline] at hnone; cases hnone
    | @direct _ old new label pairs hsome hpairs =>
      rw [hinline] at hsome
      cases hsome
      cases link with
      | soft => cases hinline
      | direct label' target =>
        cases Link.target?_of_inline hinline
        exact .direct ⟨⟨pairs, rfl, rfl, hpairs⟩, hlinked⟩

/-- A cell is written like its plan. -/
theorem encode_eq (h : cell.Parallel has plan) : cell.encode = plan.encode := by
  induction cell using Cell.induct generalizing plan with
  | step label value ih =>
    have halike : (Cell.mk label value).value.Alike
        (fun link link' => link'.written = link.written) plan.value := by
      refine h.alike.mono_links fun link hlink link' _ hlinks => ?_
      cases hlinks with
      | entry _ written => exact written.symm
      | direct below => rw [Link.written, Link.written, ih _ hlink _ rfl below]
      | soft => rfl
    exact (Cell.encode_eq_of_alike halike fun _ _ h => h).symm

theorem digest_eq (h : cell.Parallel has plan) : cell.digest = plan.digest :=
  congrArg Digest.of h.encode_eq

end Cell.Parallel

namespace Link.Parallel

variable {plan : Link}

/-- A link is written like the one in its place. -/
theorem written_eq (h : link.Parallel has (Cell.Parallel has) plan) :
    link.written = plan.written := by
  cases h with
  | entry _ written => exact written
  | direct below => rw [Link.written, Link.written, below.encode_eq]
  | soft => rfl

/-- Both are inline, or none. -/
theorem inline_eq_none_iff (h : link.Parallel has (Cell.Parallel has) plan) :
    link.inline? = none ↔ plan.inline? = none := by
  cases Link.twins h.written_eq with
  | inline ha hb => simp [ha, hb]
  | digest ha hb => simp [ha, hb]

theorem digest_eq (h : link.Parallel has (Cell.Parallel has) plan) : link.digest = plan.digest :=
  (Link.twins h.written_eq).digest_eq

/-- What is inline has a plan that is inline. -/
theorem exists_inline (h : link.Parallel has (Cell.Parallel has) plan) {target : Cell}
    (hinline : link.inline? = some target) :
    ∃ target', plan.inline? = some target' ∧ target.Parallel has target' := by
  cases h with
  | entry inline => rw [hinline] at inline; cases inline
  | soft => cases hinline
  | @direct _ _ _ target' below =>
    cases Link.target?_of_inline hinline
    refine ⟨target', ?_, below⟩
    rw [Link.inline?] at hinline ⊢
    have hsmall : target'.isSmall = target.isSmall := by
      rw [Bool.eq_iff_iff, Cell.isSmall_iff, Cell.isSmall_iff, below.encode_eq]
    rw [hsmall]
    split at hinline
    · next h => exact if_pos h
    · cases hinline

/-- A link names the same digests as the one in its place, if the cells that both hold do. -/
theorem named_eq_of_target (h : link.Parallel has (Cell.Parallel has) plan)
    (htarget : ∀ target target', link.target? = some target → target.Parallel has target' →
      target.named = target'.named) : link.named = plan.named := by
  cases hinline : link.inline? with
  | none =>
    rw [Link.named_of_not_inline hinline,
      Link.named_of_not_inline (h.inline_eq_none_iff.1 hinline), h.digest_eq]
  | some target =>
    obtain ⟨target', hinline', hbelow⟩ := h.exists_inline hinline
    rw [Link.named_of_inline hinline, Link.named_of_inline hinline']
    exact htarget target target' (Link.target?_of_inline hinline) hbelow

end Link.Parallel

/-- A cell names the same digests as its plan. -/
theorem Cell.Parallel.named_eq (h : cell.Parallel has plan) : cell.named = plan.named := by
  induction cell using Cell.induct generalizing plan with
  | step label value ih =>
    have halike : value.Alike (fun link link' => link.named = link'.named) plan.value :=
      h.alike.mono_links fun link hlink _ _ hlinks =>
        hlinks.named_eq_of_target fun target _ htarget hbelow => ih link hlink target htarget hbelow
    obtain ⟨label', value'⟩ := plan
    have hlinks := congrArg Value.links (halike.mapLinks_eq fun _ _ h => h)
    rw [Value.links_mapLinks, Value.links_mapLinks] at hlinks
    rw [Cell.named_mk, Cell.named_mk, List.flatMap_def, List.flatMap_def, hlinks]
    rfl

/-- A link names the same digests as the one in its place. -/
theorem Link.Parallel.named_eq {plan : Link} (h : link.Parallel has (Cell.Parallel has) plan) :
    link.named = plan.named :=
  h.named_eq_of_target fun _ _ _ hbelow => hbelow.named_eq

end CellGraph
