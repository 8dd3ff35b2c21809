import CellGraph.Proofs.Cell.RoundTrip

/-!
# The digests that an encoding names

A child that is not written inline is written as its digest. An encoding names such digests for the
cell itself and for all the cells inline in it.

* `Cell.named`, `Link.named`: what a cell and a link are written with;
* `Bytes.named`: what can be read off an encoding, with `Cell.named_encode`;
* `Link.rank`: how much is written inline for a link.
-/

namespace CellGraph

/-- The digests that a cell's encoding names, those of inline children included. -/
def Cell.named : Cell → List Digest :=
  Cell.fold (fun _ (value : Value (List Digest)) => value.links.flatten)
    (fun _ target below => if target.isSmall then below else [target.digest])
    (fun _ digest => [digest])

/-- The digests that are written for a link. -/
def Link.named : Link → List Digest
  | .direct _ target => if target.isSmall then target.named else [target.digest]
  | .soft _ digest => [digest]

/-- The digests that an encoding names. Bytes that do not begin with an encoding name none. -/
def Bytes.named (bytes : Bytes) : List Digest :=
  match ((Cell.scan 0 (bytes.length + 1)).runAt ⟨bytes, 0⟩).1 with
  | .ok cell => cell.named
  | .error _ => []

/-- The size of what is written inline for a link. -/
def Link.rank (link : Link) : Nat :=
  match link.inline? with
  | some target => target.encode.length
  | none => 0

theorem Cell.named_mk (label : Label) (value : Value Link) :
    Cell.named (.mk label value) = value.links.flatMap Link.named := by
  have h : Link.fold (fun _ (value : Value (List Digest)) => value.links.flatten)
      (fun _ target below => if target.isSmall then below else [target.digest])
      (fun _ digest => [digest]) = Link.named := by
    funext link
    cases link <;> simp [Link.named, Cell.named]
  rw [Cell.named, Cell.fold_mk, h, Value.links_mapLinks, List.flatMap]

theorem Cell.mem_named {cell : Cell} {digest : Digest} :
    digest ∈ cell.named ↔ ∃ link ∈ cell.links, digest ∈ link.named := by
  obtain ⟨label, value⟩ := cell
  rw [Cell.named_mk, List.mem_flatMap]
  rfl

theorem Link.named_of_inline {link : Link} {target : Cell} (h : link.inline? = some target) :
    link.named = target.named := by
  cases link with
  | soft => cases h
  | direct label held =>
    simp only [inline?] at h
    split at h
    · next hsmall =>
      cases h
      rw [named, if_pos hsmall]
    · cases h

theorem Link.named_of_not_inline {link : Link} (h : link.inline? = none) :
    link.named = [link.digest] := by
  cases link with
  | soft => rfl
  | direct label held =>
    simp only [inline?] at h
    split at h
    · cases h
    · next hlarge =>
      rw [named, if_neg hlarge]
      rfl

/-- What is read again names the same digests. -/
theorem Link.Reread.named_eq {link link' : Link} (h : link.Reread Link.inline? link') :
    link'.named = link.named := by
  induction h with
  | soft hinline => exact (Link.named_of_not_inline hinline).symm
  | @direct link old new label pairs hinline hpairs ih =>
    have hreread : Cell.Reread Link.inline? (.mk old (pairs.mapLinks Prod.fst))
        (.mk new (pairs.mapLinks Prod.snd)) := ⟨pairs, rfl, rfl, hpairs⟩
    have hencode := hreread.encode_eq
    -- The new target has the encoding of the old one, so it is written inline as well.
    have hsmall : (Cell.mk new (pairs.mapLinks Prod.snd)).isSmall := by
      rw [Cell.isSmall_iff, hencode]
      exact (Link.written_of_inline hinline).2
    rw [Link.named_of_inline hinline, Link.named, if_pos hsmall, Cell.named_mk, Cell.named_mk,
      Value.links_mapLinks, Value.links_mapLinks, List.flatMap_map, List.flatMap_map]
    exact List.flatMap_congr fun pair hp => ih pair hp

theorem Cell.Reread.named_eq {cell cell' : Cell} (h : cell.Reread Link.inline? cell') :
    cell'.named = cell.named := by
  obtain ⟨label, value⟩ := cell
  obtain ⟨label', value'⟩ := cell'
  obtain ⟨pairs, hvalue, hvalue', hpairs⟩ := h
  rw [Cell.named_mk, Cell.named_mk, show value = _ from hvalue, show value' = _ from hvalue',
    Value.links_mapLinks, Value.links_mapLinks, List.flatMap_map, List.flatMap_map]
  exact List.flatMap_congr fun pair hp => (hpairs pair hp).named_eq

/-- The encoding of a sound cell names the digests that the cell is written with. -/
theorem Cell.named_encode {cell : Cell} (hsound : cell.Sound) : cell.encode.named = cell.named := by
  obtain ⟨cell', hreads, hcell⟩ := Cell.reads_scan 0 hsound (Nat.le_succ cell.encode.length) 0
  have hrun := hreads []
  rw [List.append_nil] at hrun
  rw [Bytes.named, hrun]
  exact hcell.named_eq

end CellGraph
