import CellGraph.Proofs.Walk.Arrival
import CellGraph.Samples.Fixture
import Std.Data.String.ToNat

/-!
# The nested graph

The nested graph of depth `n` has `n` levels above a large text, and each level has a large leaf of
its own. A level is larger than what is written inline, its padding is not, whatever byte it is
filled with, and no two of the leaves and levels have one encoding. So a store that takes the graph
has `2 * n + 1` entries, the leaves first, from the topmost, and then the levels from the bottom.

* `Sample.leaf`, `Sample.nest`: the cells of the graph, with `Sample.run_nestedGraph`;
* `Sample.isSmall_leaf`, `Sample.isSmall_padding`, `Sample.isSmall_nest`: which of them are small;
* `Sample.labels_nest`: the labels of its links;
* `Sample.largeBelow_nest`, `Sample.nodup_digests`: the order in which a walk writes the graph, and
  that this is different cells;
* `Chronicle.Reached.nesting`: what a store has and reports.
-/

namespace CellGraph

open Quantity StoreAction

/-! ### Encodings of texts -/

/-- A greater number is not written in fewer groups. -/
theorem Quantity.Count.length_mono {a b : Nat} (h : a ≤ b) :
    Count.length a ≤ Count.length b := by
  suffices hgroups : ∀ (fuel : Nat) (a b : Int), a ≤ b →
      countGroups isSingle fuel a ≤ countGroups isSingle fuel b from
    hgroups _ a b (Int.ofNat_le.2 h)
  intro fuel
  induction fuel with
  | zero => exact fun _ _ _ => le_rfl
  | succ fuel ih =>
    intro a b h
    have hrest := ih (a / 128) (b / 128) (by omega)
    by_cases hb : b < 128
    · simp [countGroups, isSingle, hb, show a < 128 by omega]
    · by_cases ha : a < 128
      · simp [countGroups, isSingle, ha, hb]
      · simpa [countGroups, isSingle, ha, hb] using hrest

/-- Texts of one encoding are the same. -/
theorem Cell.text_eq_of_encode_eq {label label' : Label} {text text' : String}
    (h : Cell.encode (.mk label (.text text)) = Cell.encode (.mk label' (.text text'))) :
    text = text' := by
  rw [Cell.encode_mk, Cell.encode_mk] at h
  have hbody : Count.encode (Bytes.ofText text).length ++ Bytes.ofText text =
      Count.encode (Bytes.ofText text').length ++ Bytes.ofText text' := (List.cons.inj h).2
  have hlength : (Bytes.ofText text).length = (Bytes.ofText text').length := by
    have hsum := congrArg List.length hbody
    rw [List.length_append, List.length_append, Count.length_encode, Count.length_encode] at hsum
    rcases le_total (Bytes.ofText text).length (Bytes.ofText text').length with hle | hle
    · have := Count.length_mono hle
      omega
    · have := Count.length_mono hle
      omega
  have hbytes : Bytes.ofText text = Bytes.ofText text' := by
    rw [hlength] at hbody
    exact List.append_cancel_left hbody
  have hdecode : Utf8.decode (Bytes.ofText text) = .ok text := Utf8.decode_ofText text
  rw [hbytes, Utf8.decode_ofText] at hdecode
  exact (Except.ok.inj hdecode).symm

namespace Sample

/-! ### The cells of the graph -/

/-- The leaf of a level. -/
def leaf (number : Nat) (label : Label) : Cell :=
  .mk label (.text (toString number ++ String.ofList (List.replicate 300 'n')))

/-- The padding of a level. -/
def padding (number : Nat) (label : Label) : Cell :=
  .mk label (.blob (List.replicate 100 (UInt8.ofNat number)))

/-- A level above a cell, made of this label and those after it. -/
def levelAbove (number : Nat) (next : Label) (below : Cell) : Cell :=
  .mk (next + 5) (.vector [.direct (next + 2) (leaf number next),
    .direct (next + 3) (padding number (next + 1)), .direct (next + 4) below])

/-- The label with which the making of a level starts. -/
def firstLabel (next : Label) (number : Nat) : Label := next + 1 + 6 * number

/-- The nested graph, made of this label and those after it. -/
def nest (next : Label) : Nat → Cell
  | 0 => .mk next (.text (String.ofList (List.replicate 300 '0')))
  | number + 1 => levelAbove number (firstLabel next number) (nest next number)

theorem run_level (number : Nat) (below : Cell) (known : Knowledge) :
    (level number below).run known =
      (levelAbove number known.next below, { known with next := known.next + 6 }) := rfl

/-- The last of some levels is put on top of the others. -/
theorem levels_succ (first count : Nat) (cell : Cell) :
    levels first (count + 1) cell = levels first count cell >>= level (first + count) := by
  have hstep : ∀ first count cell,
      levels first (count + 1) cell = level first cell >>= levels (first + 1) count :=
    fun _ _ _ => rfl
  induction count generalizing first cell with
  | zero => rw [hstep]; simp [levels]
  | succ count ih =>
    rw [hstep, hstep first count, bind_assoc]
    congr 1
    funext above
    rw [ih, show first + 1 + count = first + (count + 1) by omega]

/-- What the making of a nested graph gives. -/
theorem run_nestedGraph (depth : Nat) (known : Knowledge) :
    (nestedGraph depth).run known =
      (nest known.next depth, { known with next := firstLabel known.next depth }) := by
  induction depth with
  | zero => rfl
  | succ depth ih =>
    have hsucc : nestedGraph (depth + 1) = nestedGraph depth >>= level depth := by
      simp only [nestedGraph, levels_succ, Nat.zero_add, bind_assoc]
    rw [hsucc, run_bind, ih, run_level]
    rfl

/-! ### Sizes -/

theorem isSmall_leaf (number : Nat) (label : Label) : (leaf number label).isSmall = false := by
  have hn : (String.ofList (List.replicate 300 'n')).utf8ByteSize = 300 := by decide +kernel
  have hsize : maxEmbedded < (leaf number label).encodedSize := by
    rw [leaf, Cell.encodedSize, Cell.fold_mk]
    simp only [Value.mapLinks, Value.writtenSize, String.utf8ByteSize_append, hn, maxEmbedded]
    omega
  exact decide_eq_false (Nat.not_le.2 hsize)

theorem encodedSize_padding (number : Nat) (label : Label) :
    (padding number label).encodedSize = 102 := by
  rw [padding, Cell.encodedSize, Cell.fold_mk]
  simp only [Value.mapLinks, Value.writtenSize, List.length_replicate]
  rfl

theorem isSmall_padding (number : Nat) (label : Label) : (padding number label).isSmall = true := by
  simp [Cell.isSmall, encodedSize_padding, maxEmbedded]

/-- A level is written as a vector of three. -/
theorem encode_levelAbove (number : Nat) (next : Label) (below : Cell) :
    (levelAbove number next below).encode = Kind.vector.tag :: (Count.encode 3 ++
      (writtenChild (leaf number next).encode ++
        (writtenChild (padding number (next + 1)).encode ++ writtenChild below.encode))) := by
  rw [levelAbove, Cell.encode_mk]
  rfl

theorem length_writtenChild_of_large {cell : Cell} (h : cell.isSmall = false) :
    (writtenChild cell.encode).length = 33 := by
  rw [length_writtenChild, Cell.length_encode]
  exact if_neg (of_decide_eq_false h)

/-- A level above a large cell takes 170 bytes: two digests and the padding, after two bytes. -/
theorem encodedSize_levelAbove (number : Nat) (next : Label) {below : Cell}
    (hbelow : below.isSmall = false) : (levelAbove number next below).encodedSize = 170 := by
  have hpadding : (writtenChild (padding number (next + 1)).encode).length = 102 := by
    rw [length_writtenChild, Cell.length_encode, encodedSize_padding]
    rfl
  have hcount : Count.length 3 = 1 := rfl
  rw [← Cell.length_encode, encode_levelAbove]
  simp only [List.length_cons, List.length_append, Count.length_encode, hcount, hpadding,
    length_writtenChild_of_large (isSmall_leaf number next), length_writtenChild_of_large hbelow]

theorem isSmall_nest (next : Label) (depth : Nat) : (nest next depth).isSmall = false := by
  induction depth with
  | zero =>
    have hzero : (String.ofList (List.replicate 300 '0')).utf8ByteSize = 300 := by decide +kernel
    have hsize : maxEmbedded < (nest next 0).encodedSize := by
      rw [nest, Cell.encodedSize, Cell.fold_mk]
      simp only [Value.mapLinks, Value.writtenSize, hzero, maxEmbedded]
      omega
    exact decide_eq_false (Nat.not_le.2 hsize)
  | succ depth ih =>
    rw [nest, Cell.isSmall, encodedSize_levelAbove depth _ ih]
    rfl

/-! ### Labels -/

@[simp] theorem everyLink_leaf (number : Nat) (label : Label) :
    (leaf number label).everyLink = [] := by
  rw [leaf, Cell.everyLink_mk]
  rfl

@[simp] theorem everyLink_padding (number : Nat) (label : Label) :
    (padding number label).everyLink = [] := by
  rw [padding, Cell.everyLink_mk]
  rfl

/-- A level has three links, and those of the graph below. -/
theorem everyLink_levelAbove (number : Nat) (next : Label) (below : Cell) :
    (levelAbove number next below).everyLink =
      .direct (next + 2) (leaf number next) :: .direct (next + 3) (padding number (next + 1)) ::
        .direct (next + 4) below :: below.everyLink := by
  rw [levelAbove, Cell.everyLink_mk]
  simp [Value.links, Link.everyLink]

/-- All links of the nested graph hold their targets, and their labels have been made for it. -/
theorem labels_nest (next : Label) (depth : Nat) :
    (∀ link ∈ (nest next depth).everyLink, link.isDirect ∧ next ≤ link.label ∧
        link.label < firstLabel next depth) ∧
      ((nest next depth).everyLink.map Link.label).Nodup := by
  induction depth with
  | zero =>
    have hnone : (nest next 0).everyLink = [] := by
      rw [nest, Cell.everyLink_mk]
      rfl
    simp [hnone]
  | succ depth ih =>
    obtain ⟨hlinks, hnodup⟩ := ih
    have hfirst : firstLabel next (depth + 1) = firstLabel next depth + 6 := rfl
    rw [nest, everyLink_levelAbove, hfirst]
    have hnext : next ≤ firstLabel next depth :=
      Nat.le_trans (Nat.le_add_right ..) (Nat.le_add_right ..)
    generalize firstLabel next depth = first at hlinks hnext
    have hbounds : ∀ i < 6, next ≤ first + i ∧ first + i < first + 6 :=
      fun i hi => ⟨Nat.le_trans hnext (Nat.le_add_right ..), Nat.add_lt_add_left hi first⟩
    have hnot : ∀ i, first + i ∉ (nest next depth).everyLink.map Link.label := by
      intro i hmem
      obtain ⟨link, hlink, heq⟩ := List.mem_map.1 hmem
      exact absurd (heq ▸ (hlinks link hlink).2.2) (Nat.not_lt.2 (Nat.le_add_right ..))
    constructor
    · simp only [List.forall_mem_cons]
      refine ⟨⟨rfl, hbounds 2 (by decide)⟩, ⟨rfl, hbounds 3 (by decide)⟩,
        ⟨rfl, hbounds 4 (by decide)⟩, fun link hlink => ?_⟩
      obtain ⟨hdirect, hle, hlt⟩ := hlinks link hlink
      exact ⟨hdirect, hle, Nat.lt_of_lt_of_le hlt (Nat.le_add_right ..)⟩
    · have hne : ∀ i j, i ≠ j → first + i ≠ first + j := fun i j hij heq =>
        hij (Nat.add_left_cancel heq)
      simp only [List.map_cons, List.nodup_cons, List.mem_cons, not_or]
      exact ⟨⟨hne 2 3 (by decide), hne 2 4 (by decide), hnot 2⟩, ⟨hne 3 4 (by decide), hnot 3⟩,
        hnot 4, hnodup⟩

/-! ### The order of a walk -/

@[simp] theorem largeBelow_leaf (number : Nat) (label : Label) :
    (leaf number label).largeBelow = [] := by
  rw [leaf, Cell.largeBelow_mk]
  rfl

@[simp] theorem largeBelow_padding (number : Nat) (label : Label) :
    (padding number label).largeBelow = [] := by
  rw [padding, Cell.largeBelow_mk]
  rfl

/-- Below a level there are its leaf, what is below the cell that it is above, and that cell. -/
theorem largeBelow_levelAbove (number : Nat) (next : Label) {below : Cell}
    (hbelow : below.isSmall = false) : (levelAbove number next below).largeBelow =
      leaf number next :: (below.largeBelow ++ [below]) := by
  rw [levelAbove, Cell.largeBelow_mk]
  simp [Value.links, Link.large, isSmall_leaf, isSmall_padding, hbelow]

/-- The large cells of the nested graph: the leaves from the top, and the levels from the bottom. -/
def inOrder (next : Label) (depth : Nat) : List Cell :=
  ((List.range depth).reverse.map fun number => leaf number (firstLabel next number)) ++
    (List.range (depth + 1)).map (nest next)

theorem largeBelow_nest (next : Label) (depth : Nat) :
    (nest next depth).largeBelow ++ [nest next depth] = inOrder next depth := by
  induction depth with
  | zero =>
    rw [nest, Cell.largeBelow_mk]
    rfl
  | succ depth ih =>
    have hbelow : (nest next (depth + 1)).largeBelow =
        leaf depth (firstLabel next depth) :: inOrder next depth := by
      rw [← ih]
      exact largeBelow_levelAbove _ _ (isSmall_nest next depth)
    rw [hbelow]
    simp [inOrder, List.range_succ]

theorem length_inOrder (next : Label) (depth : Nat) :
    (inOrder next depth).length = 2 * depth + 1 := by
  simp only [inOrder, List.length_append, List.length_map, List.length_reverse, List.length_range]
  omega

theorem leaf_mem_inOrder (next : Label) {number depth : Nat} (h : number < depth) :
    leaf number (firstLabel next number) ∈ inOrder next depth :=
  List.mem_append_left _ (List.mem_map.2 ⟨number, by simpa using h, rfl⟩)

theorem nest_mem_inOrder (next : Label) {number depth : Nat} (h : number < depth + 1) :
    nest next number ∈ inOrder next depth :=
  List.mem_append_right _ (List.mem_map.2 ⟨number, by simpa using h, rfl⟩)

theorem mem_everyCell_of_inOrder {next : Label} {depth : Nat} {cell : Cell}
    (h : cell ∈ inOrder next depth) : cell ∈ (nest next depth).everyCell := by
  rw [← largeBelow_nest] at h
  rcases List.mem_append.1 h with hbelow | hself
  · exact Cell.mem_everyCell_of_largeBelow hbelow
  · rw [List.mem_singleton.1 hself]
    exact List.mem_cons_self ..

/-- Of two levels, the lower one comes first, and so does the leaf of a level. -/
theorem sublist_inOrder (next : Label) {number depth : Nat} (h : number < depth) :
    [nest next number, nest next (number + 1)].Sublist (inOrder next depth) ∧
      [leaf number (firstLabel next number), nest next (number + 1)].Sublist
        (inOrder next depth) := by
  have hconsecutive : [number, number + 1].Sublist (List.range (depth + 1)) := by
    induction depth with
    | zero => cases h
    | succ depth ih =>
      rw [List.range_succ]
      rcases Nat.lt_succ_iff_lt_or_eq.1 h with hlt | rfl
      · exact (ih hlt).trans (List.sublist_append_left ..)
      · have hlower : [number].Sublist (List.range (number + 1)) :=
          List.singleton_sublist.2 (by simp)
        exact hlower.append (.refl _)
  constructor
  · exact (hconsecutive.map (nest next)).trans (List.sublist_append_right ..)
  · have hleaf : [leaf number (firstLabel next number)].Sublist
        ((List.range depth).reverse.map fun number => leaf number (firstLabel next number)) :=
      List.singleton_sublist.2 (List.mem_map.2 ⟨number, by simpa using h, rfl⟩)
    have hlevel : [nest next (number + 1)].Sublist ((List.range (depth + 1)).map (nest next)) :=
      List.singleton_sublist.2 (List.mem_map.2 ⟨number + 1, by simpa using h, rfl⟩)
    exact hleaf.append hlevel

/-! ### No cell is written twice -/

/-- Leaves of one encoding belong to one level. -/
theorem number_eq_of_encode_leaf {number number' : Nat} {label label' : Label}
    (h : (leaf number label).encode = (leaf number' label').encode) : number = number' :=
  Nat.repr_injective ((String.append_left_inj _).1 (Cell.text_eq_of_encode_eq h))

theorem encode_text_ne_levelAbove {label next : Label} {text : String} {number : Nat}
    {below : Cell} :
    Cell.encode (.mk label (.text text)) ≠ (levelAbove number next below).encode := by
  intro h
  rw [encode_levelAbove, Cell.encode_mk] at h
  have htag : Kind.text.tag = Kind.vector.tag := (List.cons.inj h).1
  exact absurd htag (by decide)

/-- The text at the bottom is no leaf: it has no number. -/
theorem encode_leaf_ne_nest (number : Nat) (label next : Label) (depth : Nat) :
    (leaf number label).encode ≠ (nest next depth).encode := by
  intro h
  cases depth with
  | zero =>
    have hlength := congrArg String.length (Cell.text_eq_of_encode_eq h)
    have hpos : 0 < (toString number).length := Nat.length_repr_pos
    simp only [String.length_append, String.length_ofList, List.length_replicate] at hlength
    omega
  | succ depth => exact encode_text_ne_levelAbove h

/-- Levels of one encoding have leaves of one digest. -/
theorem digest_leaf_of_encode_levelAbove {number number' : Nat} {next next' : Label}
    {below below' : Cell}
    (h : (levelAbove number next below).encode = (levelAbove number' next' below').encode) :
    (leaf number next).digest = (leaf number' next').digest := by
  have hlarge : ∀ number label,
      writtenChild (leaf number label).encode = (leaf number label).digest.written := by
    intro number label
    have hsize := of_decide_eq_false (isSmall_leaf number label)
    rw [← Cell.length_encode] at hsize
    exact if_neg hsize
  rw [encode_levelAbove, encode_levelAbove] at h
  have hrest := List.append_cancel_left (List.cons.inj h).2
  have hwritten := (List.append_inj hrest (by
    rw [length_writtenChild_of_large (isSmall_leaf ..),
      length_writtenChild_of_large (isSmall_leaf ..)])).1
  rw [hlarge, hlarge] at hwritten
  exact Digest.written_injective hwritten

/-- Nested graphs of one encoding have one depth, if the digests of their topmost leaves do. -/
theorem depth_eq_of_encode_nest {next : Label} {i j : Nat}
    (hleaves : ∀ a b, i = a + 1 → j = b + 1 →
      (leaf a (firstLabel next a)).digest = (leaf b (firstLabel next b)).digest → a = b)
    (h : (nest next i).encode = (nest next j).encode) : i = j := by
  cases i with
  | zero =>
    cases j with
    | zero => rfl
    | succ j => exact absurd h encode_text_ne_levelAbove
  | succ i =>
    cases j with
    | zero => exact absurd h.symm encode_text_ne_levelAbove
    | succ j => rw [hleaves i j rfl rfl (digest_leaf_of_encode_levelAbove h)]

/-- If the cells of the nested graph can be told by their digests, a walk writes no digest twice. -/
theorem nodup_digests {next : Label} {depth : Nat}
    (hinj : ∀ a ∈ inOrder next depth, ∀ b ∈ inOrder next depth,
      a.digest = b.digest → a.encode = b.encode) :
    ((inOrder next depth).map Cell.digest).Nodup := by
  have hleaves : ∀ i < depth, ∀ j < depth,
      (leaf i (firstLabel next i)).digest = (leaf j (firstLabel next j)).digest → i = j := by
    intro i hi j hj heq
    exact number_eq_of_encode_leaf
      (hinj _ (leaf_mem_inOrder next hi) _ (leaf_mem_inOrder next hj) heq)
  have hlevels : ∀ i < depth + 1, ∀ j < depth + 1,
      (nest next i).digest = (nest next j).digest → i = j := by
    intro i hi j hj heq
    refine depth_eq_of_encode_nest (fun a b ha hb => hleaves a (by omega) b (by omega)) ?_
    exact hinj _ (nest_mem_inOrder next hi) _ (nest_mem_inOrder next hj) heq
  unfold inOrder
  rw [List.map_append, List.map_map, List.map_map]
  refine List.nodup_append.2 ⟨?_, ?_, ?_⟩
  · apply List.Nodup.map_on _ (List.nodup_reverse.2 List.nodup_range)
    intro i hi j hj heq
    exact hleaves i (by simpa using hi) j (by simpa using hj) heq
  · apply List.Nodup.map_on _ List.nodup_range
    intro i hi j hj heq
    exact hlevels i (by simpa using hi) j (by simpa using hj) heq
  · intro _ hfirst _ hsecond heq
    obtain ⟨i, hi, rfl⟩ := List.mem_map.1 hfirst
    obtain ⟨j, hj, rfl⟩ := List.mem_map.1 hsecond
    apply encode_leaf_ne_nest i (firstLabel next i) next j
    exact hinj _ (leaf_mem_inOrder next (by simpa using hi)) _
      (nest_mem_inOrder next (by simpa using hj)) heq

end Sample

/-! ### What a store has of the nested graph -/

/-- The topmost cell of the nested graph of this depth. -/
def Sample.levelOf (known : Knowledge) (depth : Nat) : Cell := ((nestedGraph depth).run known).1

/-- The cells to which the links of a cell lead in memory. -/
def Cell.targets (cell : Cell) : List Cell := cell.links.filterMap Link.target?

namespace Chronicle

variable {ι : Type} [DecidableEq ι] {chronicle : Chronicle ι}

/--
After any history, a nested graph is made and brought into a store that is still empty. That
succeeds, and the store has `2 * depth + 1` entries, all of them persisted. Announcing the graph
reports as many digests, all different, and that of a level after those of the level below it and of
its own leaf.
-/
theorem Reached.nesting (h : chronicle.Reached) {index : ι}
    (hempty : chronicle.session.stores index = .emptyMemory ∨
      chronicle.session.stores index = .emptyTable)
    {depth : Nat} {top : Cell} {known : Knowledge}
    (hgraph : (Sample.nestedGraph depth).run chronicle.session.known = (top, known))
    (hinj : ∀ a ∈ top.everyCell, ∀ b ∈ top.everyCell, a.digest = b.digest → a.encode = b.encode) :
    ∃ link site, (make .persisted top).run.run ⟨known, chronicle.session.stores index, [], []⟩ =
        (.ok link, site) ∧
      site.store.count = 2 * depth + 1 ∧
      (∃ digests, site.store.digests = .ok digests ∧ digests.length = 2 * depth + 1 ∧
        ∀ key ∈ digests, site.store.status? key = .ok (some .persisted)) ∧
      ∃ link' site', (make .announced top).run.run ⟨site.known, site.store, [], []⟩ =
          (.ok link', site') ∧
        site'.novel.length = 2 * depth + 1 ∧ site'.novel.Nodup ∧
        ∀ number < depth,
          let level := Sample.levelOf chronicle.session.known (number + 1)
          let below := Sample.levelOf chronicle.session.known number
          below ∈ level.targets ∧ [below.digest, level.digest].Sublist site'.novel ∧
          ∃ leaf ∈ level.targets,
            leaf.value = .text (toString number ++ String.ofList (List.replicate 300 'n')) ∧
            [leaf.digest, level.digest].Sublist site'.novel := by
  have hlevel : ∀ number, Sample.levelOf chronicle.session.known number =
      Sample.nest chronicle.session.known.next number :=
    fun number => congrArg Prod.fst (Sample.run_nestedGraph number chronicle.session.known)
  rw [Sample.run_nestedGraph] at hgraph
  obtain ⟨rfl, rfl⟩ := Prod.mk.inj hgraph
  simp only [hlevel]
  generalize hnext : chronicle.session.known.next = next at *
  let known : Knowledge := { chronicle.session.known with next := Sample.firstLabel next depth }
  have hunused : ∀ label, next ≤ label → known.statusAt label = .unknown := by
    rw [← hnext]
    exact h.inv.usable.coherent.status
  have hless : next ≤ known.next := Nat.le_trans (Nat.le_add_right ..) (Nat.le_add_right ..)
  obtain ⟨hlinks, hlabels⟩ := Sample.labels_nest next depth
  have hnew : ∀ link ∈ (Sample.nest next depth).everyLink, link.label < known.next ∧
      known.statusAt link.label = .unknown :=
    fun link hlink => ⟨(hlinks link hlink).2.2, hunused _ (hlinks link hlink).2.1⟩
  have hnodup := Sample.nodup_digests fun a ha b hb =>
    hinj a (Sample.mem_everyCell_of_inOrder ha) b (Sample.mem_everyCell_of_inOrder hb)
  have hlength : ((Sample.inOrder next depth).map Cell.digest).length = 2 * depth + 1 :=
    (List.length_map ..).trans (Sample.length_inOrder next depth)
  have hgoal : Status.unknown < .persisted := by decide
  have hhigher : Status.persisted < .announced := by decide
  obtain ⟨link, site, hmake, ⟨digests, hdigests, hcount, hperm, hstatus⟩, link', site', hmake',
      hnovel⟩ :=
    exists_make_make hempty (fun link hlink => (hlinks link hlink).1) hlabels hnew
      (fun label hle => hunused label (Nat.le_trans hless hle))
      (by rw [Sample.largeBelow_nest]; exact hnodup) hgoal hhigher
  rw [Sample.largeBelow_nest] at hperm hnovel
  have hsize : digests.length = 2 * depth + 1 := hperm.length_eq.trans hlength
  refine ⟨link, site, hmake, hcount.trans hsize, ⟨digests, hdigests, hsize, hstatus⟩, link', site',
    hmake', hnovel ▸ hlength, hnovel ▸ hnodup, fun number hlt => ?_⟩
  obtain ⟨hbelow, hleaf⟩ := Sample.sublist_inOrder next hlt
  rw [hnovel]
  refine ⟨?_, hbelow.map Cell.digest, _, ?_, rfl, hleaf.map Cell.digest⟩
  · simp [Cell.targets, Cell.links, Cell.value, Sample.nest, Sample.levelAbove, Value.links,
      Link.target?]
  · simp [Cell.targets, Cell.links, Cell.value, Sample.nest, Sample.levelAbove, Value.links,
      Link.target?]

set_option maxRecDepth 20000 in
/-- The cells of the nested graph of depth two can be told by their digests. -/
theorem nest_two_told :
    ∀ a ∈ (Sample.nest 0 2).everyCell, ∀ b ∈ (Sample.nest 0 2).everyCell,
      a.digest = b.digest → a.encode = b.encode := by
  decide +kernel

/-- Two levels above a text, in a table that nothing has been written to. -/
theorem nesting_two :
    ∃ known, (Sample.nestedGraph 2).run {} = (Sample.nest 0 2, known) ∧
      ∃ link site, (make .persisted (Sample.nest 0 2)).run.run ⟨known, .emptyTable, [], []⟩ =
          (.ok link, site) ∧ site.store.count = 5 ∧
        ∃ link' site', (make .announced (Sample.nest 0 2)).run.run
            ⟨site.known, site.store, [], []⟩ = (.ok link', site') ∧
          site'.novel.length = 5 ∧ site'.novel.Nodup := by
  let start : Chronicle Bool := { session := { stores := twoEmpty } }
  have hreached : start.Reached := reached_start twoEmpty_empty
  have hempty : start.session.stores true = .emptyMemory ∨
      start.session.stores true = .emptyTable := twoEmpty_empty true
  have hgraph := Sample.run_nestedGraph 2 {}
  obtain ⟨link, site, hmake, hcount, -, link', site', hmake', hlength, hnodup, -⟩ :=
    hreached.nesting hempty hgraph nest_two_told
  exact ⟨_, hgraph, link, site, hmake, hcount, link', site', hmake', hlength, hnodup⟩

end Chronicle

end CellGraph
